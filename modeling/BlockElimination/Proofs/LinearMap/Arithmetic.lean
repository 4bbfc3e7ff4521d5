import BlockElimination.Proofs.LinearMap.Action

/-!
# The matrices of products and sums

Whatever representations meet, a product of maps has the product of their matrices and a sum has the sum. Operands whose
sizes fit are refused for no other reason than a size that leaves its range.
-/
namespace BlockElimination.LinearMap

open Matrix Kronecker

theorem storedRows_eq_rows {F : Type} (a : Dense F) :
    Kernel.storedRows a.flipped a.height a.width = a.rows := by
  unfold Kernel.storedRows Dense.height Dense.width
  split <;> rfl

variable {F : Type} [CommRing F] [DecidableEq F]

theorem matrix_ofColumnMajor (m n : ℕ) (f : ℕ → F) :
    (dense (.ofColumnMajor m n f)).matrix m n = .of fun i j => f (j * m + i) := by
  ext i j
  simp [entry, Dense.entry, Dense.ofColumnMajor, Kernel.storedEntry, Kernel.columnMajor_lt i.isLt j.isLt]

theorem matrix_ofEntries (m n : ℕ) (f : ℕ → ℕ → F) : (ofEntries m n f).matrix m n = .of fun i j => f i j := by
  ext i j
  exact Dense.entry_ofEntries f i.isLt j.isLt

theorem matrix_zeros (m n : ℕ) : (dense (.zeros m n) : LinearMap F).matrix m n = 0 := by
  ext i j
  simp [entry]

theorem matrix_ofColumns {K L : LinearMap F} {m k n : ℕ} (hK : K.Sized m k) :
    (ofEntries m n fun i j => coord ((tabulate n fun j =>
      K.action false 1 (tabulate k fun l => L.entry l j) 0 (Kernel.zeros m)).getD j #[]) i).matrix m n =
        K.matrix m k * L.matrix k n := by
  rw [matrix_ofEntries]
  ext i j
  rw [of_apply, getD_tabulate _ _ j.isLt]
  have h : coords m (K.action false 1 (tabulate k fun l => L.entry l j) 0 (Kernel.zeros m)) = _ :=
    coords_action hK (size_tabulate k _) (by simp [Kernel.zeros])
  rw [← coords_apply, h, one_smul, zero_smul, add_zero]
  simp [mulVec, dotProduct, mul_apply]

theorem matrix_ofRows {K L : LinearMap F} {m k n : ℕ} (hL : L.Sized k n) :
    (ofEntries m n fun i j => coord ((tabulate m fun i =>
      L.action true 1 (tabulate k fun l => K.entry i l) 0 (Kernel.zeros n)).getD i #[]) j).matrix m n =
        K.matrix m k * L.matrix k n := by
  rw [matrix_ofEntries]
  ext i j
  rw [of_apply, getD_tabulate _ _ i.isLt, action_true]
  have h : coords n (L.transpose.action false 1 (tabulate k fun l => K.entry i l) 0 (Kernel.zeros n)) = _ :=
    coords_action hL.transpose (size_tabulate k _) (by simp [Kernel.zeros])
  rw [← coords_apply, h, one_smul, zero_smul, add_zero]
  simp [mulVec, dotProduct, mul_apply, mul_comm]

theorem matrix_denseProduct {a b : Dense F} {m k n : ℕ} (ha : (dense a).Sized m k) (hb : (dense b).Sized k n) :
    (dense (.ofColumnMajor m n (coord (a.product b (Kernel.zeros (m * n)))))).matrix m n =
      (dense a).matrix m k * (dense b).matrix k n := by
  obtain ⟨rfl, rfl⟩ : a.height = m ∧ a.width = k := ha
  obtain ⟨hk, rfl⟩ : b.height = a.width ∧ b.width = n := hb
  have hrows : Kernel.storedRows b.flipped a.width b.width = b.rows := by rw [← hk, storedRows_eq_rows]
  rw [matrix_ofColumnMajor]
  ext i j
  simp only [of_apply, Dense.product, Kernel.matrixProduct, storedRows_eq_rows, hrows, coord_tabulate,
    Kernel.columnMajor_lt i.isLt j.isLt, if_true, Kernel.columnMajor_mod i.isLt, Kernel.columnMajor_div i.isLt,
    ascendingSum_eq_sum, one_mul, zero_mul, add_zero, mul_apply, matrix_apply]
  rfl

theorem yields_denseProduct {K L : LinearMap F} {m k n : ℕ} (hK : K.Sized m k) (hL : L.Sized k n) :
    Yields (K.denseProduct L) fun P => P.Sized m n ∧ P.matrix m n = K.matrix m k * L.matrix k n := by
  apply hK.denseProduct_cases hL
  · intro hzero
    refine ⟨⟨rfl, rfl⟩, ?_⟩
    rw [matrix_zeros]
    -- Either there is no position in the product, or every sum is empty.
    ext i j
    rcases hzero with rfl | rfl | rfl
    · exact i.elim0
    · exact j.elim0
    · simp [mul_apply]
  · rintro a b rfl rfl
    exact ⟨sized_ofColumnMajor m n _, matrix_denseProduct hK hL⟩
  · exact ⟨sized_ofEntries m n _, matrix_ofRows hL⟩
  · exact ⟨sized_ofEntries m n _, matrix_ofColumns hK⟩

theorem matrix_scalar (n : ℕ) (s : Stored F) : (scalar n s).matrix n n = s.value • 1 := by
  ext i j
  simp [entry, one_apply, Fin.ext_iff]

theorem matrix_diag {d : Stored (Array F)} {n : ℕ} : (diag d).matrix n n = diagonal (coords n d.value) := by
  ext i j
  simp [entry, diagonal_apply, Fin.ext_iff]

theorem matrix_kron {a b : LinearMap F} {mb nb : ℕ} (hb : b.Sized mb nb) (ma na : ℕ) :
    (kron a b).matrix (ma * mb) (na * nb) =
      (a.matrix ma na ⊗ₖ b.matrix mb nb).submatrix finProdFinEquiv.symm finProdFinEquiv.symm := by
  ext i j
  rw [matrix_apply, entry, hb.1, hb.2]
  rfl

/-- Factors that fit pairwise multiply pairwise. -/
theorem matrix_kron_mul {a b c d P Q : LinearMap F} {ma mb ka kb na nb : ℕ} (hb : b.Sized mb kb)
    (hd : d.Sized kb nb) (hP : P.matrix ma na = a.matrix ma ka * c.matrix ka na) (hQ : Q.Sized mb nb)
    (hQe : Q.matrix mb nb = b.matrix mb kb * d.matrix kb nb) :
    (kron P Q).matrix (ma * mb) (na * nb) =
      (kron a b).matrix (ma * mb) (ka * kb) * (kron c d).matrix (ka * kb) (na * nb) := by
  rw [matrix_kron hQ, matrix_kron hb, matrix_kron hd, hP, hQe, mul_kronecker_mul, submatrix_mul_equiv]

/-- A product, given those of the factors where two Kronecker products meet. -/
theorem yields_mul_of_factors {K L : LinearMap F} {m k n : ℕ} (hK : K.Sized m k) (hL : L.Sized k n)
    (factors : ∀ a b c d, K = kron a b → L = kron c d → Chains a b c d →
      Yields (a.mul c) (fun P => P.Sized a.rows c.cols ∧
        P.matrix a.rows c.cols = a.matrix a.rows a.cols * c.matrix a.cols c.cols) ∧
      Yields (b.mul d) fun Q => Q.Sized b.rows d.cols ∧
        Q.matrix b.rows d.cols = b.matrix b.rows b.cols * d.matrix b.cols d.cols) :
    Yields (K.mul L) fun P => P.Sized m n ∧ P.matrix m n = K.matrix m k * L.matrix k n := by
  apply hK.mul_cases hL
  · rintro s rfl rfl
    refine ⟨hL.scale _, ?_⟩
    rw [matrix_scale, matrix_scalar, smul_mul, Matrix.one_mul]
  · rintro s rfl rfl
    refine ⟨hK.scale _, ?_⟩
    rw [matrix_scale, matrix_scalar, Matrix.mul_smul, Matrix.mul_one]
  · rintro u v rfl rfl - rfl rfl
    refine ⟨sized_ofDiagonal (size_tabulate m _), ?_⟩
    rw [ofDiagonal, matrix_diag, matrix_diag, matrix_diag, diagonal_mul_diagonal]
    congr 1
    funext i
    simp
  · rintro a b c d rfl rfl hchains
    obtain ⟨rfl, rfl⟩ := hK
    obtain ⟨-, rfl⟩ := hL
    obtain ⟨hP, hQ⟩ := factors a b c d rfl rfl hchains
    refine hP.bind fun P hP => hQ.bind fun Q hQ => Yields.pure_iff.mpr ⟨?_, ?_⟩
    · exact ⟨by simp only [rows, hP.1.1, hQ.1.1], by simp only [cols, hP.1.2, hQ.1.2]⟩
    · exact matrix_kron_mul ⟨rfl, rfl⟩ ⟨hchains.2.symm, rfl⟩ hP.2 hQ.1 hQ.2
  · exact fun _ => yields_denseProduct hK hL

theorem yields_mul {K L : LinearMap F} {m k n : ℕ} (hK : K.Sized m k) (hL : L.Sized k n) :
    Yields (K.mul L) fun P => P.Sized m n ∧ P.matrix m n = K.matrix m k * L.matrix k n := by
  induction K generalizing L m k n with
  | dense a => exact yields_mul_of_factors hK hL fun _ _ _ _ h => nomatch h
  | diag a => exact yields_mul_of_factors hK hL fun _ _ _ _ h => nomatch h
  | scalar p s => exact yields_mul_of_factors hK hL fun _ _ _ _ h => nomatch h
  | kron a b iha ihb =>
    refine yields_mul_of_factors hK hL ?_
    rintro _ _ c d ⟨⟩ rfl ⟨hac, hbd⟩
    exact ⟨iha ⟨rfl, rfl⟩ ⟨hac.symm, rfl⟩, ihb ⟨rfl, rfl⟩ ⟨hbd.symm, rfl⟩⟩

theorem ofSum_ne_kron (s t : Kind) : s.ofSum t ≠ .kron := by
  cases s <;> cases t <;> decide

omit [DecidableEq F] in
theorem coords_replicate (n : ℕ) (a : F) : coords n (Array.replicate n a) = fun _ => a := by
  funext i
  simp [coords, coord]

theorem HasDiagonal.matrix_eq {K : LinearMap F} {u : Array F} {n : ℕ} (h : HasDiagonal n K u) :
    K.matrix n n = diagonal (coords n u) := by
  cases h with
  | diag d _ => exact matrix_diag
  | scalar a => rw [matrix_scalar, smul_one_eq_diagonal, coords_replicate]

theorem yields_add {K L : LinearMap F} {m n : ℕ} (hK : K.Sized m n) (hL : L.Sized m n) :
    Yields (K.add L) fun P => P.Sized m n ∧ P.matrix m n = K.matrix m n + L.matrix m n ∧
      P.kind = K.kind.ofSum L.kind := by
  apply hK.add_cases hL
  · rintro a b rfl rfl rfl
    refine ⟨⟨rfl, rfl⟩, ?_, rfl⟩
    rw [ofScalar, matrix_scalar, matrix_scalar, matrix_scalar, add_smul]
  · rintro u v hu hv rfl hkind
    refine ⟨sized_ofDiagonal ((Kernel.size_accumulate 1 v u).trans hu.size_eq), ?_, hkind.symm⟩
    rw [ofDiagonal, matrix_diag, hu.matrix_eq, hv.matrix_eq, diagonal_add]
    congr 1
    funext i
    rw [coords_apply, coord_accumulate _ (hu.size_eq ▸ i.isLt), one_mul]
    rfl
  · intro hkind
    refine ⟨sized_ofColumnMajor m n _, ?_, hkind.symm⟩
    rw [matrix_ofColumnMajor]
    ext i j
    have hKe := coord_entries K (i.isLt.trans_eq hK.1.symm) (j.isLt.trans_eq hK.2.symm)
    have hLe := coord_entries L (i.isLt.trans_eq hL.1.symm) (j.isLt.trans_eq hL.2.symm)
    rw [hK.1] at hKe
    rw [hL.1] at hLe
    rw [of_apply, coord_accumulate, hKe, hLe, one_mul, Matrix.add_apply, matrix_apply, matrix_apply]
    rw [size_entries, hK.1, hK.2]
    exact Kernel.columnMajor_lt i.isLt j.isLt

end BlockElimination.LinearMap
