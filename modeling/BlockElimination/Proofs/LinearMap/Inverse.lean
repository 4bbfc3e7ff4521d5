import BlockElimination.Proofs.Kernel.SymmetricInverse
import BlockElimination.Proofs.LinearMap.Arithmetic

/-!
# The matrices of inverses

A dense map is inverted as if it were symmetric, and a Kronecker product factor by factor. The factors of a symmetric
product need not be symmetric: a pair of skew factors has a symmetric product. So what is carried through the factors
is symmetry up to a sign, and a skew dense map has no inverse here because its first pivot is zero.
-/
namespace BlockElimination.LinearMap

open Matrix Kronecker

section Forms
variable {F ι κ : Type} [Field F]

/-- The transpose is the matrix itself or its negative. -/
def SignSymmetric (M : Matrix ι ι F) : Prop := ∃ c : F, c * c = 1 ∧ Mᵀ = c • M

theorem SignSymmetric.of_isSymm {M : Matrix ι ι F} (h : M.IsSymm) : SignSymmetric M :=
  ⟨1, one_mul 1, by rw [one_smul, h.eq]⟩

theorem SignSymmetric.of_submatrix {M : Matrix κ κ F} (e : ι ≃ κ) (h : SignSymmetric (M.submatrix e e)) :
    SignSymmetric M := by
  obtain ⟨c, hc, h⟩ := h
  refine ⟨c, hc, ?_⟩
  ext i j
  simpa using congrFun (congrFun h (e.symm i)) (e.symm j)

theorem SignSymmetric.of_mul {M : Matrix ι ι F} {N : Matrix κ κ F} {c : F}
    (h : ∀ i j k l, M j i * N l k = c * (M i j * N k l)) (hM : M ≠ 0) (hN : N ≠ 0) : SignSymmetric M := by
  obtain ⟨l, k, hlk⟩ : ∃ l k, N l k ≠ 0 := by
    by_contra hzero
    push Not at hzero
    exact hN (ext hzero)
  obtain ⟨i, j, hij⟩ : ∃ i j, M i j ≠ 0 := by
    by_contra hzero
    push Not at hzero
    exact hM (ext hzero)
  have hflip : ∀ i j, M j i = c * N k l / N l k * M i j := fun i j => by
    rw [div_mul_eq_mul_div, eq_div_iff hlk, h i j k l]
    ring
  refine ⟨c * N k l / N l k, mul_right_cancel₀ hij ?_, ?_⟩
  · rw [one_mul, mul_assoc, ← hflip i j, ← hflip j i]
  · ext i j
    exact hflip i j

theorem SignSymmetric.of_kronecker {M : Matrix ι ι F} {N : Matrix κ κ F} (h : SignSymmetric (M ⊗ₖ N)) (hM : M ≠ 0)
    (hN : N ≠ 0) : SignSymmetric M ∧ SignSymmetric N := by
  obtain ⟨c, -, h⟩ := h
  have hentry : ∀ i j k l, M j i * N l k = c * (M i j * N k l) := fun i j k l => congrFun (congrFun h (i, k)) (j, l)
  refine ⟨.of_mul hentry hM hN, .of_mul (c := c) (fun k l i j => ?_) hN hM⟩
  rw [mul_comm, hentry, mul_comm (M i j)]

variable [Fintype ι] [Fintype κ]

/-- A map onto fewer coordinates vanishes at some vector, and a multiple of it has a coordinate one. -/
theorem exists_mulVec_eq_zero_of_lt {m n : ℕ} (M : Matrix (Fin m) (Fin n) F) (h : m < n) :
    ∃ x : Fin n → F, (∃ i, x i = 1) ∧ M *ᵥ x = 0 := by
  have hker : LinearMap.ker M.mulVecLin ≠ ⊥ := LinearMap.ker_ne_bot_of_finrank_lt (by simpa using h)
  obtain ⟨x, hx, hne⟩ := Submodule.exists_mem_ne_zero_of_ne_bot hker
  obtain ⟨i, hi⟩ := Function.ne_iff.mp hne
  refine ⟨(x i)⁻¹ • x, ⟨i, inv_mul_cancel₀ hi⟩, ?_⟩
  rw [mulVec_smul, show M *ᵥ x = 0 from hx, smul_zero]

def tensor (x : ι → F) (y : κ → F) : ι × κ → F := fun p => x p.1 * y p.2

theorem kronecker_mulVec_tensor {ι' κ' : Type} (M : Matrix ι' ι F) (N : Matrix κ' κ F) (x : ι → F) (y : κ → F) :
    (M ⊗ₖ N) *ᵥ tensor x y = tensor (M *ᵥ x) (N *ᵥ y) := by
  funext r
  simp only [mulVec, dotProduct, tensor, kroneckerMap_apply, Fintype.sum_prod_type, Finset.sum_mul_sum]
  exact Finset.sum_congr rfl fun i _ => Finset.sum_congr rfl fun k _ => by ring

theorem tensor_dotProduct_tensor (x x' : ι → F) (y y' : κ → F) :
    tensor x y ⬝ᵥ tensor x' y' = (x ⬝ᵥ x') * (y ⬝ᵥ y') := by
  simp only [dotProduct, tensor, Fintype.sum_prod_type, Finset.sum_mul_sum]
  exact Finset.sum_congr rfl fun i _ => Finset.sum_congr rfl fun k _ => by ring

variable [LinearOrder F]

/-- The quadratic form is larger than `eps` at every vector with a coordinate one. -/
def Separated (eps : F) (M : Matrix ι ι F) : Prop := ∀ u : ι → F, (∃ i, u i = 1) → eps < |u ⬝ᵥ M *ᵥ u|

theorem Separated.diagonal [DecidableEq ι] {eps : F} {M : Matrix ι ι F} (h : Separated eps M) (i : ι) :
    eps < |M i i| := by
  simpa using h (Pi.single i 1) ⟨i, Pi.single_eq_same i 1⟩

theorem Separated.of_submatrix {eps : F} {M : Matrix κ κ F} (e : ι ≃ κ) (h : Separated eps (M.submatrix e e)) :
    Separated eps M := by
  rintro u ⟨i, hi⟩
  have := h (u ∘ e) ⟨e.symm i, by simpa using hi⟩
  rwa [submatrix_mulVec_equiv, Function.comp_assoc, e.self_comp_symm, Function.comp_id,
    comp_equiv_dotProduct_comp_equiv] at this

variable [IsStrictOrderedRing F]

omit [Fintype κ] in
theorem SignSymmetric.isSymm_or_skew {M : Matrix ι ι F} (h : SignSymmetric M) :
    M.IsSymm ∨ ∀ u : ι → F, u ⬝ᵥ M *ᵥ u = 0 := by
  obtain ⟨c, hc, hM⟩ := h
  rcases mul_self_eq_one_iff.mp hc with rfl | rfl
  · exact .inl (by rw [IsSymm, hM, one_smul])
  · refine .inr fun u => self_eq_neg.mp ?_
    calc u ⬝ᵥ M *ᵥ u = u ⬝ᵥ Mᵀ *ᵥ u := by rw [mulVec_transpose, dotProduct_mulVec, dotProduct_comm]
      _ = -(u ⬝ᵥ M *ᵥ u) := by rw [hM, neg_one_smul, neg_mulVec, dotProduct_neg]

/-- Where a Kronecker product of square matrices has no isotropic vector, its factors have none. -/
theorem Separated.of_kronecker [DecidableEq ι] [DecidableEq κ] [Nonempty ι] [Nonempty κ] {M : Matrix ι ι F}
    {N : Matrix κ κ F} (h : Separated 0 (M ⊗ₖ N)) (hsymm : (M ⊗ₖ N).IsSymm) :
    (M.IsSymm ∧ Separated 0 M) ∧ N.IsSymm ∧ Separated 0 N := by
  have hform : ∀ x y, (∃ i, x i = 1) → (∃ k, y k = 1) → x ⬝ᵥ M *ᵥ x ≠ 0 ∧ y ⬝ᵥ N *ᵥ y ≠ 0 := by
    rintro x y ⟨i, hi⟩ ⟨k, hk⟩
    have hxy := h (tensor x y) ⟨(i, k), by rw [tensor, hi, hk, one_mul]⟩
    rw [kronecker_mulVec_tensor, tensor_dotProduct_tensor, abs_pos] at hxy
    exact mul_ne_zero_iff.mp hxy
  obtain ⟨i⟩ := ‹Nonempty ι›
  obtain ⟨k⟩ := ‹Nonempty κ›
  have hi : ∃ j, (Pi.single i 1 : ι → F) j = 1 := ⟨i, Pi.single_eq_same i 1⟩
  have hk : ∃ j, (Pi.single k 1 : κ → F) j = 1 := ⟨k, Pi.single_eq_same k 1⟩
  have hM : ∀ x, (∃ j, x j = 1) → x ⬝ᵥ M *ᵥ x ≠ 0 := fun x hx => (hform x _ hx hk).1
  have hN : ∀ y, (∃ j, y j = 1) → y ⬝ᵥ N *ᵥ y ≠ 0 := fun y hy => (hform _ y hi hy).2
  obtain ⟨hMs, hNs⟩ := (SignSymmetric.of_isSymm hsymm).of_kronecker (fun e => hM _ hi (by simp [e]))
    fun e => hN _ hk (by simp [e])
  refine ⟨⟨?_, fun x hx => abs_pos.mpr (hM x hx)⟩, ?_, fun y hy => abs_pos.mpr (hN y hy)⟩
  · exact hMs.isSymm_or_skew.resolve_right fun e => hM _ hi (e _)
  · exact hNs.isSymm_or_skew.resolve_right fun e => hN _ hk (e _)

end Forms

section Overdetermined
variable {F : Type} [Field F] [LinearOrder F] {a b : LinearMap F} {m n : ℕ}

theorem exists_kron_mulVec_eq_zero (hK : (kron a b).Sized m n) {x : Fin a.cols → F} {y : Fin b.cols → F}
    (hx : ∃ i, x i = 1) (hy : ∃ k, y k = 1)
    (h : a.matrix a.rows a.cols *ᵥ x = 0 ∨ b.matrix b.rows b.cols *ᵥ y = 0) :
    ∃ u : Fin n → F, (∃ i, u i = 1) ∧ (kron a b).matrix m n *ᵥ u = 0 := by
  obtain ⟨rfl, rfl⟩ : a.rows * b.rows = m ∧ a.cols * b.cols = n := hK
  obtain ⟨i, hi⟩ := hx
  obtain ⟨k, hk⟩ := hy
  refine ⟨tensor x y ∘ finProdFinEquiv.symm, ⟨finProdFinEquiv (i, k), ?_⟩, ?_⟩
  · rw [Function.comp_apply, Equiv.symm_apply_apply, tensor, hi, hk, one_mul]
  · rw [matrix_kron ⟨rfl, rfl⟩, submatrix_mulVec_equiv, Function.comp_assoc, Equiv.symm_symm,
      Equiv.symm_comp_self, Function.comp_id, kronecker_mulVec_tensor]
    funext r
    rcases h with h | h <;> simp [tensor, h]

variable [IsStrictOrderedRing F]

/-- The factors of a square Kronecker product that vanishes nowhere are square. -/
theorem square_factors (hK : (kron a b).Sized n n) (hn : 0 < n)
    (h : Separated 0 ((kron a b).matrix n n)) : a.rows = a.cols ∧ b.rows = b.cols := by
  have hregular : ∀ u : Fin n → F, (∃ i, u i = 1) → (kron a b).matrix n n *ᵥ u ≠ 0 := fun u hu hzero => by
    have := h u hu
    rw [hzero, dotProduct_zero, abs_zero] at this
    exact lt_irrefl 0 this
  have hrows : a.rows * b.rows = n := hK.1
  have hcols : a.cols * b.cols = n := hK.2
  have hpos : 0 < a.cols ∧ 0 < b.cols := CanonicallyOrderedAdd.mul_pos.mp (hcols ▸ hn)
  have ha : a.cols ≤ a.rows := by
    by_contra hlt
    obtain ⟨x, hx, hzero⟩ := exists_mulVec_eq_zero_of_lt (a.matrix a.rows a.cols) (not_le.mp hlt)
    obtain ⟨u, hu, hue⟩ := exists_kron_mulVec_eq_zero hK hx (y := 1) ⟨⟨0, hpos.2⟩, rfl⟩ (.inl hzero)
    exact hregular u hu hue
  have hb : b.cols ≤ b.rows := by
    by_contra hlt
    obtain ⟨y, hy, hzero⟩ := exists_mulVec_eq_zero_of_lt (b.matrix b.rows b.cols) (not_le.mp hlt)
    obtain ⟨u, hu, hue⟩ := exists_kron_mulVec_eq_zero hK (x := 1) ⟨⟨0, hpos.1⟩, rfl⟩ hy (.inr hzero)
    exact hregular u hu hue
  have heq : a.rows * b.rows = a.cols * b.cols := hrows.trans hcols.symm
  constructor
  · exact (Nat.le_of_mul_le_mul_right ((Nat.mul_le_mul_left _ hb).trans heq.le) hpos.2).antisymm ha
  · exact (Nat.le_of_mul_le_mul_left ((Nat.mul_le_mul_right _ ha).trans heq.le) hpos.1).antisymm hb

end Overdetermined

section Inversion
variable {F : Type} [Field F] [LinearOrder F]

/-- What an inverse answers: the map is square, and the answer inverts it if it is symmetric up to a sign. -/
structure InvertedBy (K : LinearMap F) (m n : ℕ) (P : LinearMap F) : Prop where
  square : m = n
  sized : P.Sized n n
  mul_eq_one : SignSymmetric (K.matrix n n) → K.matrix n n * P.matrix n n = 1

/-- Why there is no inverse of a square map: it is not symmetric or some value of its form is too small. A Kronecker
product is judged by its factors, so there this is only known for the tolerance zero. -/
def Rejectable (eps : F) (K : LinearMap F) (m n : ℕ) : Prop :=
  m = n → (K.matrix n n).IsSymm → Separated eps (K.matrix n n) → K.kind = .kron ∧ ¬(eps = 0 ∧ 0 < n)

theorem Rejectable.of_not_separated {eps : F} {K : LinearMap F} {m n : ℕ}
    (h : (K.matrix n n).IsSymm → ¬Separated eps (K.matrix n n)) : Rejectable eps K m n :=
  fun _ hsymm hsep => absurd hsep (h hsymm)

/-- Read as its array is stored, a dense map is itself or its transpose. -/
theorem storedEntry_eq_entry {d : Dense F} {n : ℕ} (hd : (dense d).Sized n n)
    (hsymm : ((dense d).matrix n n).IsSymm) (i j : Fin n) :
    Kernel.storedEntry false n d.array.value i j = (dense d).matrix n n i j := by
  obtain ⟨hheight, hwidth⟩ : d.height = n ∧ d.width = n := hd
  have hrows : d.rows = n := by
    unfold Dense.height at hheight
    unfold Dense.width at hwidth
    split at hheight <;> simp_all
  cases hflip : d.flipped with
  | false => simp only [matrix_apply, entry, Dense.entry, hflip, hrows]
  | true =>
    rw [← hsymm.apply i j]
    simp only [matrix_apply, entry, Dense.entry, hflip, hrows, Kernel.storedEntry, if_true]
    rfl

variable [IsStrictOrderedRing F] {eps : F}

/-- The first pivot is the first entry on the diagonal, which is zero in a skew matrix. -/
theorem isSymm_of_symmetricInverse (heps : 0 ≤ eps) {d : Dense F} {n : ℕ}
    (hsign : SignSymmetric ((dense d).matrix n n)) {inv : Array F}
    (h : Kernel.symmetricInverse? n d.array.value eps = some inv) : ((dense d).matrix n n).IsSymm := by
  rcases hsign.isSymm_or_skew with hsymm | hskew
  · exact hsymm
  · ext i j
    have hn : 0 < n := i.pos
    obtain ⟨cols, hcols, -⟩ := Option.bind_eq_some_iff.mp h
    have hd := Kernel.decomposes_of_factorColumns heps hcols
    have hfirst : Kernel.storedEntry false n d.array.value 0 0 = Kernel.FactorColumns.pivot cols 0 := by
      simpa [hd.diag 0 hn hn] using hd.entry 0 hn 0 le_rfl hn
    have hentry : (dense d).matrix n n ⟨0, hn⟩ ⟨0, hn⟩ = Kernel.storedEntry false n d.array.value 0 0 := by
      cases hflip : d.flipped <;> simp [entry, Dense.entry, hflip, Kernel.storedEntry]
    have hzero : (dense d).matrix n n ⟨0, hn⟩ ⟨0, hn⟩ = 0 := by
      simpa using hskew (Pi.single ⟨0, hn⟩ 1)
    exact absurd (hfirst.symm.trans (hentry.symm.trans hzero)) (hd.pivot_ne_zero 0 hn)

theorem yields_inverse_dense (heps : 0 ≤ eps) {d : Dense F} {m n : ℕ} (hd : (dense d).Sized m n) :
    ((dense d).inverse eps).Yields (InvertedBy (dense d) m n) fun _ => Rejectable eps (dense d) m n := by
  refine hd.yields_inverse_of (fun hmn => ?_) fun hne heq => absurd heq hne
  subst hmn
  obtain ⟨hheight, hwidth⟩ : d.height = m ∧ d.width = m := hd
  rw [inverseOnly, Dense.inverse, if_pos (hheight.trans hwidth.symm), hheight]
  cases hinv : Kernel.symmetricInverse? m d.array.value eps with
  | some inv =>
    refine ⟨rfl, sized_ofColumnMajor m m _, fun hsign => ?_⟩
    have hsymm := isSymm_of_symmetricInverse heps hsign hinv
    have hstored := storedEntry_eq_entry ⟨hheight, hwidth⟩ hsymm
    have hmul := Kernel.mul_symmetricInverse heps (fun i j => by rw [hstored, hstored, hsymm.apply]) hinv
    rw [matrix_ofColumnMajor, ← hmul]
    congr 1
    ext i j
    exact (hstored i j).symm
  | none =>
    refine Rejectable.of_not_separated fun hsymm hsep => ?_
    have hstored := storedEntry_eq_entry ⟨hheight, hwidth⟩ hsymm
    have hmatrix : (Matrix.of fun i j : Fin m => Kernel.storedEntry false m d.array.value i j) =
        (dense d).matrix m m := ext hstored
    obtain ⟨inv, hsome⟩ := Kernel.exists_symmetricInverse (a := d.array.value) heps
      (fun i j => by rw [hstored, hstored, hsymm.apply]) fun u hu => hmatrix ▸ hsep u hu
    rw [hsome] at hinv
    cases hinv

theorem yields_inverse_diag (heps : 0 ≤ eps) {d : Stored (Array F)} {m n : ℕ} (hd : (diag d).Sized m n) :
    ((diag d).inverse eps).Yields (InvertedBy (diag d) m n) fun _ => Rejectable eps (diag d) m n := by
  refine hd.yields_inverse_of (fun hmn => ?_) fun hne heq => absurd heq hne
  subst hmn
  have hsize : d.value.size = m := hd.1
  rw [inverseOnly, Diagonal.inverse]
  split
  case isTrue hany =>
    refine Rejectable.of_not_separated fun _ hsep => ?_
    obtain ⟨i, hi, hle⟩ := Array.any_eq_true.mp hany
    have hlarge := hsep.diagonal ⟨i, hsize ▸ hi⟩
    rw [matrix_diag, diagonal_apply_eq, coords_apply, coord_of_lt hi] at hlarge
    exact absurd ((Scalar.isLe_eq_true_iff _ _).mp hle) (not_le.mpr hlarge)
  case isFalse hnone =>
    refine ⟨rfl, ⟨by simpa [rows, ofDiagonal] using hsize, by simpa [cols, ofDiagonal] using hsize⟩, fun _ => ?_⟩
    rw [ofDiagonal, matrix_diag, matrix_diag, diagonal_mul_diagonal, ← diagonal_one]
    congr 1
    funext i
    have hi : (i : ℕ) < d.value.size := hsize ▸ i.isLt
    have hlarge : eps < |d.value[(i : ℕ)]| := by
      by_contra hle
      exact hnone (Array.any_eq_true.mpr ⟨i, hi, (Scalar.isLe_eq_true_iff _ _).mpr (not_lt.mp hle)⟩)
    simp [coord, hi, mul_inv_cancel₀ (abs_pos.mp (heps.trans_lt hlarge))]

theorem yields_inverse_scalar (heps : 0 ≤ eps) {p : ℕ} {alpha : Stored F} {m n : ℕ}
    (hs : (scalar p alpha).Sized m n) :
    ((scalar p alpha).inverse eps).Yields (InvertedBy (scalar p alpha) m n) fun _ =>
      Rejectable eps (scalar p alpha) m n := by
  refine hs.yields_inverse_of (fun hmn => ?_) fun hne heq => absurd heq hne
  subst hmn
  obtain rfl : p = m := hs.1
  rw [inverseOnly, inverseScalar]
  split
  case isTrue hsmall =>
    refine Rejectable.of_not_separated fun _ hsep => ?_
    have hlarge := hsep.diagonal ⟨0, hsmall.1⟩
    rw [matrix_scalar, Matrix.smul_apply, one_apply_eq, smul_eq_mul, mul_one] at hlarge
    exact absurd ((Scalar.isLe_eq_true_iff _ _).mp hsmall.2) (not_le.mpr hlarge)
  case isFalse hnot =>
    refine ⟨rfl, ⟨rfl, rfl⟩, fun _ => ?_⟩
    ext i j
    have hlarge : eps < |alpha.value| := by
      by_contra hle
      exact hnot ⟨i.pos, (Scalar.isLe_eq_true_iff _ _).mpr (not_lt.mp hle)⟩
    rw [ofScalar, matrix_scalar, matrix_scalar, smul_mul, Matrix.one_mul, smul_smul, Scalar.recip_eq,
      mul_inv_cancel₀ (abs_pos.mp (heps.trans_lt hlarge)), one_smul]

theorem InvertedBy.matrix_ne_zero {K P : LinearMap F} {m n : ℕ} (h : InvertedBy K m n P) (hn : 0 < n) :
    K.matrix n n ≠ 0 := fun hzero => by
  have := congrFun (congrFun (h.mul_eq_one (.of_isSymm (by rw [hzero]; exact isSymm_zero))) ⟨0, hn⟩) ⟨0, hn⟩
  rw [hzero, Matrix.zero_mul] at this
  simp at this

theorem InvertedBy.kron {a b P Q : LinearMap F} {m n : ℕ} (hK : (kron a b).Sized m n)
    (ha : InvertedBy a a.rows a.cols P) (hb : InvertedBy b b.rows b.cols Q) :
    InvertedBy (kron a b) m n (kron P Q) := by
  obtain ⟨hm, rfl⟩ : a.rows * b.rows = m ∧ a.cols * b.cols = n := hK
  refine ⟨by rw [← hm, ha.square, hb.square], ?_, fun hsign => ?_⟩
  · exact ⟨by simp only [rows, ha.sized.1, hb.sized.1], by simp only [cols, ha.sized.2, hb.sized.2]⟩
  · have hbs : b.Sized b.cols b.cols := ⟨hb.square, rfl⟩
    rcases Nat.eq_zero_or_pos (a.cols * b.cols) with hzero | hpos
    · ext i
      exact absurd i.pos (by omega)
    · obtain ⟨hap, hbp⟩ := CanonicallyOrderedAdd.mul_pos.mp hpos
      rw [matrix_kron hbs] at hsign
      obtain ⟨hasign, hbsign⟩ := (SignSymmetric.of_submatrix finProdFinEquiv.symm hsign).of_kronecker
        (ha.matrix_ne_zero hap) (hb.matrix_ne_zero hbp)
      rw [matrix_kron hbs, matrix_kron hb.sized, submatrix_mul_equiv, ← mul_kronecker_mul, ha.mul_eq_one hasign,
        hb.mul_eq_one hbsign, one_kronecker_one, submatrix_one_equiv]

theorem Rejectable.kron {a b : LinearMap F} {m n : ℕ} (hK : (kron a b).Sized m n)
    (h : Rejectable eps a a.rows a.cols ∨ Rejectable eps b b.rows b.cols) : Rejectable eps (kron a b) m n := by
  refine fun hmn hsymm hsep => ⟨rfl, ?_⟩
  rintro ⟨rfl, hn⟩
  subst hmn
  obtain ⟨ha, hb⟩ := square_factors hK hn hsep
  obtain ⟨-, rfl⟩ : a.rows * b.rows = m ∧ a.cols * b.cols = m := hK
  obtain ⟨hap, hbp⟩ := CanonicallyOrderedAdd.mul_pos.mp hn
  have := Fin.pos_iff_nonempty.mp hap
  have := Fin.pos_iff_nonempty.mp hbp
  rw [matrix_kron ⟨hb, rfl⟩] at hsymm hsep
  obtain ⟨⟨hasymm, hasep⟩, hbsymm, hbsep⟩ :=
    hsep.of_submatrix.of_kronecker (by simpa using hsymm.submatrix finProdFinEquiv)
  rcases h with h | h
  · exact (h ha hasymm hasep).2 ⟨rfl, hap⟩
  · exact (h hb hbsymm hbsep).2 ⟨rfl, hbp⟩

theorem yields_inverse (heps : 0 ≤ eps) {K : LinearMap F} {m n : ℕ} (hK : K.Sized m n) :
    (K.inverse eps).Yields (InvertedBy K m n) fun _ => Rejectable eps K m n := by
  induction K generalizing m n with
  | dense d => exact yields_inverse_dense heps hK
  | diag d => exact yields_inverse_diag heps hK
  | scalar p alpha => exact yields_inverse_scalar heps hK
  | kron a b iha ihb =>
    refine hK.yields_inverse_of (fun hmn => ?_) fun hne heq => absurd heq hne
    refine Outcome.Yields.lift_bind (yields_size hK) ?_
    rintro _ rfl
    dsimp only
    rw [if_neg (not_not.mpr hmn)]
    refine Outcome.Yields.bind (q := fun _ => Rejectable eps (kron a b) m n)
      (Outcome.Yields.mapError (iha ⟨rfl, rfl⟩) fun _ ha => Rejectable.kron hK (.inl ha)) fun P hP => ?_
    refine Outcome.Yields.bind (q := fun _ => Rejectable eps (kron a b) m n)
      (Outcome.Yields.mapError (ihb ⟨rfl, rfl⟩) fun _ hb => Rejectable.kron hK (.inr hb)) fun Q hQ => ?_
    exact hP.kron hK hQ

end Inversion

end BlockElimination.LinearMap
