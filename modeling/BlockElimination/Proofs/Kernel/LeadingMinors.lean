import BlockElimination.Proofs.Kernel.LowerTriangle

/-!
# Pivots and leading minors

The leading blocks of `L D Lᵀ` are decomposed by the leading blocks of its factors, so a leading minor is the product of
the pivots before it. A pivot is thus a ratio of two leading minors. The columns of a decomposition exist as long as
these ratios exceed the tolerance.
-/
namespace BlockElimination.Kernel

open Matrix FactorColumns

variable {F : Type} [Field F] [LinearOrder F]

/-- The first `k` rows and columns. -/
def leadingBlock (s : ℕ → ℕ → F) (k : ℕ) : Matrix (Fin k) (Fin k) F := .of fun i j => s i j

theorem Decomposes.restrict {m n : ℕ} {s : ℕ → ℕ → F} {cols : Array (FactorColumn F)} {j : ℕ}
    (h : Decomposes n s cols j) (hm : m ≤ n) : Decomposes m s cols j where
  size := h.size
  pivot_ne_zero := h.pivot_ne_zero
  above k hk i hik him := h.above k hk i hik (him.trans_le hm)
  diag k hk hkm := h.diag k hk (hkm.trans_le hm)
  entry k hk i hki him := h.entry k hk i hki (him.trans_le hm)

section Block
variable {n j : ℕ} {s : ℕ → ℕ → F} {cols : Array (FactorColumn F)}

/-- The block that ends with the next pivot. -/
theorem Decomposes.leadingBlock_succ (h : Decomposes (j + 1) s cols j) (hs : ∀ i k, s i k = s k i) :
    leadingBlock s (j + 1) = completedLower (j + 1) cols j *
      diagonal (Fin.snoc (fun l : Fin j => pivot cols l) (nextPivotValue s cols j)) *
        (completedLower (j + 1) cols j)ᵀ := by
  ext i k
  have hentry := h.entry_add_pivot (j := Fin.last j) (fun i k => hs i k) (Nat.lt_succ_iff.mp i.isLt)
    (Nat.lt_succ_iff.mp k.isLt)
  have hfinished : ∀ (i : Fin (j + 1)) (l : Fin j), completedLower (j + 1) cols j i l.castSucc = lower cols i l :=
    fun i l => by rw [completedLower, of_apply, Fin.val_castSucc, if_pos l.isLt]
  have hlast : ∀ i, completedLower (j + 1) cols j i (Fin.last j) = if i = Fin.last j then 1 else 0 :=
    fun i => by rw [completedLower, of_apply, Fin.val_last, if_neg (lt_irrefl j)]
  rw [mul_apply, leadingBlock, of_apply, hentry]
  simp only [mul_diagonal, transpose_apply]
  rw [Fin.sum_univ_castSucc]
  simp only [hfinished, hlast, Fin.snoc_castSucc, Fin.snoc_last]
  rw [Fin.sum_univ_eq_sum_range fun l => lower cols i l * pivot cols l * lower cols k l]
  congr 1
  split <;> split <;> simp

theorem Decomposes.det_leadingBlock_succ (h : Decomposes (j + 1) s cols j) (hs : ∀ i k, s i k = s k i) :
    (leadingBlock s (j + 1)).det = (∏ l : Fin j, pivot cols l) * nextPivotValue s cols j := by
  rw [h.leadingBlock_succ hs, det_mul, det_mul, det_transpose, h.det_completedLower, det_diagonal, one_mul, mul_one,
    Fin.prod_univ_castSucc]
  simp only [Fin.snoc_castSucc, Fin.snoc_last]

/-- A leading minor is the product of the pivots. -/
theorem Decomposes.det_leadingBlock (h : Decomposes n s cols j) (hs : ∀ i k, s i k = s k i) (hj : j ≤ n) :
    (leadingBlock s j).det = ∏ l : Fin j, pivot cols l := by
  have hsquare := h.restrict hj
  have hlower : lowerMatrix j cols = completedLower j cols j := by
    ext i k
    simp [lowerMatrix, completedLower]
  rw [leadingBlock, hsquare.factored fun i k => hs i k, hlower, det_mul, det_mul, det_transpose,
    hsquare.det_completedLower, det_diagonal, one_mul, mul_one]
  rfl

theorem Decomposes.det_leadingBlock_ne_zero (h : Decomposes n s cols j) (hs : ∀ i k, s i k = s k i) (hj : j ≤ n) :
    (leadingBlock s j).det ≠ 0 := by
  rw [h.det_leadingBlock hs hj]
  exact Finset.prod_ne_zero_iff.mpr fun l _ => h.pivot_ne_zero l l.isLt

/-- The next pivot is a ratio of leading minors. -/
theorem Decomposes.nextPivotValue_eq (h : Decomposes n s cols j) (hs : ∀ i k, s i k = s k i) (hj : j < n) :
    nextPivotValue s cols j = (leadingBlock s (j + 1)).det / (leadingBlock s j).det := by
  rw [eq_div_iff (h.det_leadingBlock_ne_zero hs hj.le), (h.restrict hj).det_leadingBlock_succ hs,
    h.det_leadingBlock hs hj.le, mul_comm]

end Block

/-- The leading minors up to `k` do not vanish, and the next one is larger than the tolerance lets it be. -/
def PassesAt (s : ℕ → ℕ → F) (eps : F) (k : ℕ) : Prop :=
  (∀ i ≤ k, (leadingBlock s i).det ≠ 0) ∧ eps < |(leadingBlock s (k + 1)).det / (leadingBlock s k).det|

variable [IsStrictOrderedRing F] {n : ℕ} {s : ℕ → ℕ → F} {eps : F}

/-- A decomposition gets as far as the leading minors let it. -/
theorem exists_factorColumns_iff (heps : 0 ≤ eps) (hs : ∀ i k, s i k = s k i) {j : ℕ} (hj : j ≤ n) :
    (∃ cols, factorColumns n s eps j = some cols) ↔ ∀ k < j, PassesAt s eps k := by
  induction j with
  | zero => exact ⟨fun _ k hk => absurd hk (Nat.not_lt_zero k), fun _ => ⟨#[], rfl⟩⟩
  | succ j ih =>
    have ih := ih (Nat.le_of_succ_le hj)
    constructor
    · rintro ⟨cols, h⟩
      obtain ⟨done, hdone, h⟩ := Option.bind_eq_some_iff.mp h
      obtain ⟨c, hc, -⟩ := Option.bind_eq_some_iff.mp h
      obtain ⟨hpivot, hlarge, -⟩ := factorColumn_eq_some hc
      have hdecomposes := decomposes_of_factorColumns heps hdone
      have hbefore := ih.mp ⟨done, hdone⟩
      intro k hk
      rcases Nat.lt_succ_iff_lt_or_eq.mp hk with hk | rfl
      · exact hbefore k hk
      · refine ⟨fun i hi => ?_, ?_⟩
        · rcases Nat.lt_or_eq_of_le hi with hi | rfl
          · exact (hbefore i hi).1 i le_rfl
          · exact hdecomposes.det_leadingBlock_ne_zero hs (Nat.le_of_succ_le hj)
        · rwa [← hdecomposes.nextPivotValue_eq hs hj, ← hpivot]
    · intro h
      obtain ⟨done, hdone⟩ := ih.mpr fun k hk => h k (by omega)
      have hdecomposes := decomposes_of_factorColumns heps hdone
      have hlarge : eps < |nextPivotValue s done j| := by
        rw [hdecomposes.nextPivotValue_eq hs hj]
        exact (h j (by omega)).2
      obtain ⟨c, hc⟩ := factorColumn_isSome (n := n) hlarge
      exact ⟨done.push c, by simp [factorColumns, hdone, hc]⟩

/-- The entries of the symmetric matrix with the lower triangle of an array. -/
def mirrored (n : ℕ) (a : Array F) (i j : ℕ) : F := storedEntry false n a (max i j) (min i j)

omit [IsStrictOrderedRing F] in
theorem mirrored_comm (n : ℕ) (a : Array F) (i j : ℕ) : mirrored n a i j = mirrored n a j i := by
  rw [mirrored, mirrored, max_comm, min_comm]

omit [IsStrictOrderedRing F] in
theorem mirrored_of_le (n : ℕ) (a : Array F) {i j : ℕ} (h : j ≤ i) : mirrored n a i j = storedEntry false n a i j := by
  rw [mirrored, max_eq_left h, min_eq_right h]

/-- There is an inverse if and only if no leading minor is in the way. -/
theorem exists_symmetricInverse_iff (heps : 0 ≤ eps) (a : Array F) :
    (∃ inv, symmetricInverse? n a eps = some inv) ↔ ∀ j < n, PassesAt (mirrored n a) eps j := by
  rw [← exists_factorColumns_iff heps (mirrored_comm n a) le_rfl,
    factorColumns_congr (t := storedEntry false n a) (fun i _ j hji => mirrored_of_le n a hji) le_rfl]
  constructor
  · rintro ⟨inv, h⟩
    obtain ⟨cols, hcols, -⟩ := Option.bind_eq_some_iff.mp h
    exact ⟨cols, hcols⟩
  · rintro ⟨cols, hcols⟩
    exact ⟨_, by rw [symmetricInverse?, hcols]; rfl⟩

/-- An answer inverts the matrix with the lower triangle of the array, whatever stands above the diagonal. -/
theorem mirrored_mul_symmetricInverse (heps : 0 ≤ eps) {a inv : Array F} (h : symmetricInverse? n a eps = some inv) :
    leadingBlock (mirrored n a) n * (Matrix.of fun i j : Fin n => coord inv (j * n + i)) = 1 := by
  let b := tabulate (n * n) fun p => mirrored n a (p % n) (p / n)
  have hb : ∀ i < n, ∀ j < n, storedEntry false n b i j = mirrored n a i j := by
    intro i hi j hj
    simp [b, storedEntry, columnMajor_lt hi hj, columnMajor_mod hi, columnMajor_div hi]
  have hsame : SameLower n a b := fun i hi j hji => by rw [hb i hi j (by omega), mirrored_of_le n a hji]
  have hblock : leadingBlock (mirrored n a) n = Matrix.of fun i j : Fin n => storedEntry false n b i j := by
    ext i j
    exact (hb i i.isLt j j.isLt).symm
  rw [hblock]
  refine mul_symmetricInverse heps (fun i j => ?_) (hsame.symmetricInverse?_eq eps ▸ h)
  rw [hb i i.isLt j j.isLt, hb j j.isLt i i.isLt, mirrored_comm]

omit [IsStrictOrderedRing F] in
theorem size_symmetricInverse {a inv : Array F} (h : symmetricInverse? n a eps = some inv) : inv.size = n * n := by
  obtain ⟨cols, -, h⟩ := Option.bind_eq_some_iff.mp h
  obtain rfl := Option.some.inj h
  exact size_tabulate _ _

/-- Inversion in place succeeds if and only if no leading minor vanishes before the last one and all ratios of one to
the one before exceed the tolerance. Then the array holds both triangles of the inverse. -/
theorem invertSymmetric_iff_leading_minors {mat work : Array F} (heps : 0 ≤ eps) (hmat : mat.size = n * n)
    (hwork : n + n * n ≤ work.size) (hn : n + n * n < Size.bound) :
    ∃ r, invertSymmetric n mat eps work = .ok r ∧
      (r.isSome ↔ ∀ j < n, (∀ i ≤ j, (leadingBlock (mirrored n mat) i).det ≠ 0) ∧
        eps < |(leadingBlock (mirrored n mat) (j + 1)).det / (leadingBlock (mirrored n mat) j).det|) ∧
      ∀ inv, r = some inv → inv.size = n * n ∧
        leadingBlock (mirrored n mat) n * (Matrix.of fun i j : Fin n => coord inv (j * n + i)) = 1 ∧
          (Matrix.of fun i j : Fin n => coord inv (j * n + i)) * leadingBlock (mirrored n mat) n = 1 := by
  refine ⟨symmetricInverse? n mat eps, by rw [invertSymmetric_eq hmat hwork, if_pos hn], ?_, fun inv hinv => ?_⟩
  · rw [Option.isSome_iff_exists]
    exact exists_symmetricInverse_iff heps mat
  · have hmul := mirrored_mul_symmetricInverse heps hinv
    exact ⟨size_symmetricInverse hinv, hmul, mul_eq_one_comm.mp hmul⟩

theorem invertSymmetric_lopsided : ∃ inv : Array ℚ,
    invertSymmetric 2 #[4, 1, 9, 3] (1 / 2 : ℚ) #[7, 7, 7, 7, 7, 7] = .ok (some inv) ∧ inv.size = 2 * 2 ∧
      leadingBlock (mirrored 2 #[4, 1, 9, 3]) 2 * (Matrix.of fun i j : Fin 2 => coord inv (j * 2 + i)) = 1 := by
  have hmat : (#[4, 1, 9, 3] : Array ℚ).size = 2 * 2 := rfl
  have hwork : 2 + 2 * 2 ≤ (#[7, 7, 7, 7, 7, 7] : Array ℚ).size := by decide
  have heps : (0 : ℚ) ≤ 1 / 2 := by norm_num
  obtain ⟨r, hr, hsome, hinv⟩ := invertSymmetric_iff_leading_minors heps hmat hwork (by decide)
  obtain ⟨inv, rfl⟩ := Option.isSome_iff_exists.mp (hsome.mpr (by decide +kernel))
  exact ⟨inv, hr, (hinv inv rfl).1, (hinv inv rfl).2.1⟩

end BlockElimination.Kernel
