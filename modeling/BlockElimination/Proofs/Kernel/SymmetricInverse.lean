import BlockElimination.Proofs.Exact

/-!
# The inverse of a symmetric matrix

The columns of the decomposition satisfy `S = L D Lᵀ` in exact arithmetic, so substitution through `L`, `D` and `Lᵀ`
solves for the columns of the inverse. A pivot is the value of the quadratic form of `S` at a vector with a coordinate
one, so no pivot fails where that form stays above the tolerance at all such vectors.
-/
namespace BlockElimination.Kernel

open Matrix FactorColumns

section Substitution
variable {F : Type} [Scalar F]

theorem lower_push_of_lt {cols : Array (FactorColumn F)} {c : FactorColumn F} {k : ℕ} (hk : k < cols.size) (i : ℕ) :
    lower (cols.push c) i k = lower cols i k := by
  simp [lower, Array.getElem?_push, hk.ne, hk]

theorem pivot_push_of_lt {cols : Array (FactorColumn F)} {c : FactorColumn F} {k : ℕ} (hk : k < cols.size) :
    pivot (cols.push c) k = pivot cols k := by
  simp [pivot, Array.getElem?_push, hk.ne, hk]

theorem lower_push_self (cols : Array (FactorColumn F)) (c : FactorColumn F) (i : ℕ) :
    lower (cols.push c) i cols.size = coord c.lower i := by
  simp [lower]

theorem pivot_push_self (cols : Array (FactorColumn F)) (c : FactorColumn F) :
    pivot (cols.push c) cols.size = c.pivot := by
  simp [pivot]

theorem eq_tabulate_of_push {α : Type} {f : ℕ → Array α} {g : ℕ → α} (zero : f 0 = #[])
    (succ : ∀ t, f (t + 1) = (f t).push (g t)) (t : ℕ) : f t = tabulate t g := by
  induction t with
  | zero => rw [zero]; rfl
  | succ t ih =>
    rw [succ, ih]
    apply Array.ext
    · simp
    · intro i hi _
      simp only [Array.getElem_push, getElem_tabulate, size_tabulate]
      split
      · rfl
      · congr 1
        simp at hi
        omega

theorem coord_solveLower (cols : Array (FactorColumn F)) (e : ℕ → F) {n i : ℕ} (hi : i < n) :
    coord (solveLower cols e n) i =
      descendingFrom (e i) i fun j => lower cols i j * coord (solveLower cols e n) j := by
  have htab := eq_tabulate_of_push (f := solveLower cols e) rfl fun t => rfl
  conv_lhs => rw [htab n, coord_tabulate, if_pos hi]
  refine descendingFrom_congr rfl fun j hj => ?_
  rw [htab i, htab n, coord_tabulate, coord_tabulate, if_pos hj, if_pos (hj.trans hi)]

/-- The array holds the last coordinate first. -/
theorem coord_solveUpper (cols : Array (FactorColumn F)) (z : ℕ → F) {n j : ℕ} (hj : j < n) :
    coord (solveUpper cols n z n) (n - 1 - j) = descendingFrom (z j) (n - 1 - j) fun p =>
      lower cols (j + 1 + p) j * coord (solveUpper cols n z n) (n - 1 - (j + 1 + p)) := by
  have htab := eq_tabulate_of_push (f := solveUpper cols n z) rfl fun t => rfl
  conv_lhs => rw [htab n, coord_tabulate, if_pos (by omega)]
  rw [show n - (n - 1 - j + 1) = j by omega]
  refine descendingFrom_congr rfl fun p hp => ?_
  rw [htab (n - 1 - j), htab n, coord_tabulate, coord_tabulate, if_pos (by omega), if_pos (by omega),
    show n - 1 - j - 1 - p = n - 1 - (j + 1 + p) by omega]

end Substitution

variable {F : Type} [Field F] [LinearOrder F]

/-- The first `j` columns of a decomposition of `s`, below and on the diagonal. -/
structure Decomposes (n : ℕ) (s : ℕ → ℕ → F) (cols : Array (FactorColumn F)) (j : ℕ) : Prop where
  size : cols.size = j
  pivot_ne_zero : ∀ k < j, pivot cols k ≠ 0
  above : ∀ k < j, ∀ i < k, i < n → lower cols i k = 0
  diag : ∀ k < j, k < n → lower cols k k = 1
  entry : ∀ k < j, ∀ i, k ≤ i → i < n →
    s i k = ∑ l ∈ Finset.range (k + 1), lower cols i l * pivot cols l * lower cols k l

/-- The pivot of column `j`, given the columns before it. -/
def nextPivotValue (s : ℕ → ℕ → F) (done : Array (FactorColumn F)) (j : ℕ) : F :=
  s j j - ∑ k ∈ Finset.range j, lower done j k * lower done j k * pivot done k

theorem factorColumn_eq_some {n : ℕ} {s : ℕ → ℕ → F} {eps : F} {done : Array (FactorColumn F)} {j : ℕ}
    {c : FactorColumn F} (h : factorColumn n s eps done j = some c) :
    c.pivot = nextPivotValue s done j ∧ eps < |c.pivot| ∧ ∀ i < n, coord c.lower i =
      if i < j then 0
      else if i = j then 1
      else (s i j - ∑ k ∈ Finset.range j, lower done i k * lower done j k * pivot done k) / c.pivot := by
  unfold factorColumn at h
  simp only [descendingFrom_eq_sub_sum, Scalar.isLe_eq_true_iff, Scalar.abs_eq] at h
  split at h
  case isTrue => cases h
  case isFalse hpivot =>
    obtain rfl := Option.some.inj h
    exact ⟨rfl, not_le.mp hpivot, fun i hi => by rw [coord_tabulate, if_pos hi]⟩

theorem factorColumn_isSome {n : ℕ} {s : ℕ → ℕ → F} {eps : F} {done : Array (FactorColumn F)} {j : ℕ}
    (h : eps < |nextPivotValue s done j|) : ∃ c, factorColumn n s eps done j = some c := by
  unfold factorColumn
  simp only [descendingFrom_eq_sub_sum, Scalar.isLe_eq_true_iff, Scalar.abs_eq]
  rw [nextPivotValue] at h
  rw [if_neg (not_le.mpr h)]
  exact ⟨_, rfl⟩

variable [IsStrictOrderedRing F]

theorem Decomposes.push {n : ℕ} {s : ℕ → ℕ → F} {eps : F} {done : Array (FactorColumn F)} {j : ℕ}
    (h : Decomposes n s done j) (heps : 0 ≤ eps) {c : FactorColumn F}
    (hc : factorColumn n s eps done j = some c) : Decomposes n s (done.push c) (j + 1) := by
  obtain ⟨hpivot, hlarge, hlower⟩ := factorColumn_eq_some hc
  have hne : c.pivot ≠ 0 := abs_pos.mp (heps.trans_lt hlarge)
  have hlast : ∀ i, lower (done.push c) i j = coord c.lower i := fun i => by
    rw [← lower_push_self done c i, h.size]
  have hpiv : pivot (done.push c) j = c.pivot := by rw [← pivot_push_self done c, h.size]
  have hold : ∀ k < j, ∀ i, lower (done.push c) i k = lower done i k := fun k hk i =>
    lower_push_of_lt (h.size.symm ▸ hk) i
  have holdp : ∀ k < j, pivot (done.push c) k = pivot done k := fun k hk => pivot_push_of_lt (h.size.symm ▸ hk)
  constructor
  · simp [h.size]
  · intro k hk
    rcases Nat.lt_succ_iff_lt_or_eq.mp hk with hk | rfl
    · rw [holdp k hk]
      exact h.pivot_ne_zero k hk
    · rwa [hpiv]
  · intro k hk i hik hin
    rcases Nat.lt_succ_iff_lt_or_eq.mp hk with hk | rfl
    · rw [hold k hk]
      exact h.above k hk i hik hin
    · rw [hlast, hlower i hin, if_pos hik]
  · intro k hk hkn
    rcases Nat.lt_succ_iff_lt_or_eq.mp hk with hk | rfl
    · rw [hold k hk]
      exact h.diag k hk hkn
    · rw [hlast, hlower k hkn, if_neg (lt_irrefl k), if_pos rfl]
  · intro k hk i hki hin
    rcases Nat.lt_succ_iff_lt_or_eq.mp hk with hk | rfl
    · rw [h.entry k hk i hki hin]
      refine Finset.sum_congr rfl fun l hl => ?_
      have hl : l < j := (Finset.mem_range.mp hl).trans_le hk
      rw [hold l hl, hold l hl, holdp l hl]
    · have hsum : ∑ l ∈ Finset.range k, lower (done.push c) i l * pivot (done.push c) l * lower (done.push c) k l =
          ∑ l ∈ Finset.range k, lower done i l * lower done k l * pivot done l := by
        refine Finset.sum_congr rfl fun l hl => ?_
        have hl : l < k := Finset.mem_range.mp hl
        rw [hold l hl, hold l hl, holdp l hl]
        ring
      rw [Finset.sum_range_succ, hsum, hlast, hlast, hpiv, hlower i hin, hlower k (hki.trans_lt hin),
        if_neg (not_lt.mpr hki), if_neg (lt_irrefl k), if_pos rfl, mul_one]
      rcases eq_or_ne i k with rfl | hik
      · rw [if_pos rfl, hpivot, nextPivotValue]
        ring
      · rw [if_neg hik, div_mul_cancel₀ _ hne]
        ring

theorem decomposes_of_factorColumns {n : ℕ} {s : ℕ → ℕ → F} {eps : F} (heps : 0 ≤ eps) {j : ℕ}
    {cols : Array (FactorColumn F)} (h : factorColumns n s eps j = some cols) : Decomposes n s cols j := by
  induction j generalizing cols with
  | zero =>
    obtain rfl := Option.some.inj h
    constructor <;> simp
  | succ j ih =>
    obtain ⟨done, hdone, h⟩ := Option.bind_eq_some_iff.mp h
    obtain ⟨c, hc, h⟩ := Option.bind_eq_some_iff.mp h
    obtain rfl := Option.some.inj h
    exact (ih hdone).push heps hc

def lowerMatrix (n : ℕ) (cols : Array (FactorColumn F)) : Matrix (Fin n) (Fin n) F := .of fun i j => lower cols i j

def pivots (n : ℕ) (cols : Array (FactorColumn F)) : Fin n → F := fun k => pivot cols k

omit [IsStrictOrderedRing F] in
theorem Decomposes.entry_eq_sum {n : ℕ} {s : ℕ → ℕ → F} {cols : Array (FactorColumn F)} {j : ℕ}
    (h : Decomposes n s cols j) {i k : ℕ} (hk : k < j) (hki : k ≤ i) (hin : i < n) :
    s i k = ∑ l ∈ Finset.range j, lower cols i l * pivot cols l * lower cols k l := by
  rw [h.entry k hk i hki hin]
  refine Finset.sum_subset (Finset.range_subset_range.mpr hk) fun l hl hlk => ?_
  rw [h.above l (Finset.mem_range.mp hl) k (by simpa using hlk) (hki.trans_lt hin), mul_zero]

omit [IsStrictOrderedRing F] in
/-- `S = L D Lᵀ`. -/
theorem Decomposes.factored {n : ℕ} {s : ℕ → ℕ → F} {cols : Array (FactorColumn F)} (h : Decomposes n s cols n)
    (hs : ∀ i j : Fin n, s i j = s j i) :
    (.of fun i j : Fin n => s i j) = lowerMatrix n cols * diagonal (pivots n cols) * (lowerMatrix n cols)ᵀ := by
  ext i k
  rw [mul_apply]
  simp only [mul_diagonal, transpose_apply, lowerMatrix, pivots, of_apply]
  rw [Fin.sum_univ_eq_sum_range fun l => lower cols i l * pivot cols l * lower cols k l]
  rcases le_total (k : ℕ) i with hki | hik
  · exact h.entry_eq_sum k.isLt hki i.isLt
  · rw [hs i k, h.entry_eq_sum i.isLt hik k.isLt]
    exact Finset.sum_congr rfl fun l _ => by ring

omit [IsStrictOrderedRing F] in
/-- Substitution downwards solves `L y = e`. -/
theorem Decomposes.mulVec_solveLower {n : ℕ} {s : ℕ → ℕ → F} {cols : Array (FactorColumn F)}
    (h : Decomposes n s cols n) (e : ℕ → F) :
    lowerMatrix n cols *ᵥ (fun i => coord (solveLower cols e n) i) = fun i : Fin n => e i := by
  funext i
  have hyi := coord_solveLower cols e i.isLt
  rw [descendingFrom_eq_sub_sum] at hyi
  simp only [mulVec, dotProduct, lowerMatrix, of_apply]
  rw [Fin.sum_univ_eq_sum_range fun j => lower cols i j * coord (solveLower cols e n) j]
  rw [← Finset.sum_subset (Finset.range_subset_range.mpr i.isLt) fun j hj hji => by
    rw [h.above j (Finset.mem_range.mp hj) i (by simpa using hji) i.isLt, zero_mul]]
  rw [Finset.sum_range_succ, h.diag i i.isLt i.isLt, one_mul, hyi]
  ring

omit [IsStrictOrderedRing F] in
/-- Substitution upwards solves `Lᵀ x = z`. -/
theorem Decomposes.mulVec_solveUpper {n : ℕ} {s : ℕ → ℕ → F} {cols : Array (FactorColumn F)}
    (h : Decomposes n s cols n) (z : ℕ → F) :
    (lowerMatrix n cols)ᵀ *ᵥ (fun i => coord (solveUpper cols n z n) (n - 1 - i)) = fun i : Fin n => z i := by
  funext j
  have hj := j.isLt
  have hxj := coord_solveUpper cols z hj
  rw [descendingFrom_eq_sub_sum] at hxj
  have habove : ∑ i ∈ Finset.range j, lower cols i j * coord (solveUpper cols n z n) (n - 1 - i) = 0 :=
    Finset.sum_eq_zero fun i hi => by
      have hi := Finset.mem_range.mp hi
      rw [h.above j hj i hi (hi.trans hj), zero_mul]
  simp only [mulVec, dotProduct, lowerMatrix, transpose_apply, of_apply]
  rw [Fin.sum_univ_eq_sum_range fun i => lower cols i j * coord (solveUpper cols n z n) (n - 1 - i)]
  rw [sum_range_split _ hj, habove, h.diag j hj hj, one_mul, zero_add, hxj]
  ring

omit [IsStrictOrderedRing F] in
theorem Decomposes.mulVec_solveFactored {n : ℕ} {s : ℕ → ℕ → F} {cols : Array (FactorColumn F)}
    (h : Decomposes n s cols n) (hs : ∀ i j : Fin n, s i j = s j i) (e : ℕ → F) :
    (.of fun i j : Fin n => s i j) *ᵥ (fun i => coord (solveFactored cols n e) i) = fun i : Fin n => e i := by
  have hx : (fun i : Fin n => coord (solveFactored cols n e) i) = fun i : Fin n =>
      coord (solveUpper cols n (coord (tabulate n fun i => coord (solveLower cols e n) i / pivot cols i)) n)
        (n - 1 - i) := by
    funext i
    rw [solveFactored, coord_tabulate, if_pos i.isLt]
  have hz : diagonal (pivots n cols) *ᵥ (fun i : Fin n =>
      coord (tabulate n fun i => coord (solveLower cols e n) i / pivot cols i) i) =
        fun i : Fin n => coord (solveLower cols e n) i := by
    funext i
    rw [mulVec_diagonal, coord_tabulate, if_pos i.isLt, pivots, mul_div_cancel₀ _ (h.pivot_ne_zero i i.isLt)]
  rw [h.factored hs, hx, ← mulVec_mulVec, ← mulVec_mulVec, h.mulVec_solveUpper, hz, h.mulVec_solveLower]

/-- What `symmetricInverse?` answers is the inverse. -/
theorem mul_symmetricInverse {n : ℕ} {a inv : Array F} {eps : F} (heps : 0 ≤ eps)
    (hs : ∀ i j : Fin n, storedEntry false n a i j = storedEntry false n a j i)
    (h : symmetricInverse? n a eps = some inv) :
    (Matrix.of fun i j : Fin n => storedEntry false n a i j) *
      (Matrix.of fun i j : Fin n => coord inv (j * n + i)) = 1 := by
  obtain ⟨cols, hcols, h⟩ := Option.bind_eq_some_iff.mp h
  obtain rfl := Option.some.inj h
  have hd := decomposes_of_factorColumns heps hcols
  ext i c
  have hi := congrFun (hd.mulVec_solveFactored hs fun i => if i = c then 1 else 0) i
  rw [mul_apply, one_apply]
  simp only [mulVec, dotProduct, of_apply] at hi ⊢
  simp only [Fin.ext_iff, ← hi]
  refine Finset.sum_congr rfl fun l _ => ?_
  rw [coord_tabulate, if_pos (columnMajor_lt l.isLt c.isLt), columnMajor_mod l.isLt, columnMajor_div l.isLt,
    getD_tabulate _ _ c.isLt]

omit [IsStrictOrderedRing F] in
theorem Decomposes.entry_add_pivot {n : ℕ} {s : ℕ → ℕ → F} {cols : Array (FactorColumn F)} {j : Fin n}
    (h : Decomposes n s cols j) (hs : ∀ i k : Fin n, s i k = s k i) {i k : Fin n} (hi : (i : ℕ) ≤ j)
    (hk : (k : ℕ) ≤ j) : s i k = ∑ l ∈ Finset.range j, lower cols i l * pivot cols l * lower cols k l +
      if i = j then if k = j then nextPivotValue s cols j else 0 else 0 := by
  by_cases hij : i = j
  · by_cases hkj : k = j
    · subst hij hkj
      rw [if_pos rfl, if_pos rfl, nextPivotValue, ← sub_eq_iff_eq_add']
      congr 1
      exact Finset.sum_congr rfl fun l _ => by ring
    · rw [if_pos hij, if_neg hkj, add_zero]
      exact h.entry_eq_sum (lt_of_le_of_ne hk fun e => hkj (Fin.ext e)) (hij ▸ hk) i.isLt
  · rw [if_neg hij, add_zero, hs i k]
    have hlt : (i : ℕ) < j := lt_of_le_of_ne hi fun e => hij (Fin.ext e)
    rcases le_total (i : ℕ) k with hik | hki
    · rw [h.entry_eq_sum hlt hik k.isLt]
      exact Finset.sum_congr rfl fun l _ => by ring
    · rw [hs k i, h.entry_eq_sum (hki.trans_lt hlt) hki i.isLt]

/-- The finished columns of `L`, with columns of the identity in the place of the others. -/
def completedLower (n : ℕ) (cols : Array (FactorColumn F)) (j : ℕ) : Matrix (Fin n) (Fin n) F :=
  .of fun i k => if (k : ℕ) < j then lower cols i k else if i = k then 1 else 0

omit [IsStrictOrderedRing F] in
theorem Decomposes.det_completedLower {n : ℕ} {s : ℕ → ℕ → F} {cols : Array (FactorColumn F)} {j : ℕ}
    (h : Decomposes n s cols j) : (completedLower n cols j).det = 1 := by
  have htri : (completedLower n cols j).IsLowerTriangular := by
    intro i k hik
    have hik : (i : ℕ) < k := hik
    simp only [completedLower, of_apply]
    split
    case isTrue hk => exact h.above k hk i hik i.isLt
    case isFalse => rw [if_neg fun e => by simp [e] at hik]
  rw [det_of_isLowerTriangular _ htri]
  refine Finset.prod_eq_one fun k _ => ?_
  simp only [completedLower, of_apply, if_true]
  split
  case isTrue hk => exact h.diag k hk k.isLt
  case isFalse => rfl

omit [IsStrictOrderedRing F] in
theorem Decomposes.isUnit_completedLower {n : ℕ} {s : ℕ → ℕ → F} {cols : Array (FactorColumn F)} {j : ℕ}
    (h : Decomposes n s cols j) : IsUnit (completedLower n cols j)ᵀ.det := by
  rw [det_transpose, h.det_completedLower]
  exact isUnit_one

/-- The vector ends with a one at coordinate `j`, and the finished columns of `L` vanish on it. -/
structure PivotVector {n : ℕ} (cols : Array (FactorColumn F)) (j : Fin n) (u : Fin n → F) : Prop where
  finished : ∀ k < (j : ℕ), ∑ i : Fin n, lower cols i k * u i = 0
  last : u j = 1
  beyond : ∀ k : Fin n, ¬(k : ℕ) ≤ j → u k = 0

omit [IsStrictOrderedRing F] in
theorem Decomposes.exists_pivotVector {n : ℕ} {s : ℕ → ℕ → F} {cols : Array (FactorColumn F)} {j : Fin n}
    (h : Decomposes n s cols j) : ∃ u : Fin n → F, PivotVector cols j u := by
  obtain ⟨u, hu⟩ : ∃ u, (completedLower n cols j)ᵀ *ᵥ u = Pi.single j 1 :=
    ⟨(completedLower n cols j)ᵀ⁻¹ *ᵥ Pi.single j 1, by
      rw [mulVec_mulVec, mul_nonsing_inv _ h.isUnit_completedLower, one_mulVec]⟩
  have hrow : ∀ k : Fin n, ∑ i, completedLower n cols j i k * u i = if k = j then 1 else 0 := fun k => by
    rw [← Pi.single_apply, ← hu]
    rfl
  have hcoord : ∀ k : Fin n, (j : ℕ) ≤ k → u k = if k = j then 1 else 0 := fun k hk => by
    have hcol : ∀ i, completedLower n cols j i k = if i = k then 1 else 0 := fun i => by
      rw [completedLower, of_apply, if_neg (not_lt.mpr hk)]
    simp only [← hrow k, hcol, ite_mul, one_mul, zero_mul, Finset.sum_ite_eq', Finset.mem_univ, if_true]
  refine ⟨u, fun k hk => ?_, ?_, fun k hk => ?_⟩
  · have := hrow ⟨k, hk.trans j.isLt⟩
    rwa [if_neg fun e => by simp [Fin.ext_iff] at e; omega, Finset.sum_congr rfl fun i _ => by
      rw [completedLower, of_apply, if_pos hk]] at this
  · rw [hcoord j le_rfl, if_pos rfl]
  · rw [hcoord k (le_of_not_ge hk), if_neg fun e : k = j => hk (e ▸ le_rfl)]

omit [IsStrictOrderedRing F] in
theorem Decomposes.term_eq {n : ℕ} {s : ℕ → ℕ → F} {cols : Array (FactorColumn F)} {j : Fin n}
    (h : Decomposes n s cols j) (hs : ∀ i k : Fin n, s i k = s k i) {u : Fin n → F} (hu : PivotVector cols j u)
    (i k : Fin n) : u i * (s i k * u k) =
      ∑ l ∈ Finset.range j, lower cols i l * u i * (pivot cols l * (lower cols k l * u k)) +
        if i = j then if k = j then nextPivotValue s cols j else 0 else 0 := by
  by_cases hi : (i : ℕ) ≤ j
  · by_cases hk : (k : ℕ) ≤ j
    · rw [h.entry_add_pivot hs hi hk, add_mul, mul_add, Finset.sum_mul, Finset.mul_sum]
      congr 1
      · exact Finset.sum_congr rfl fun l _ => by ring
      · split
        case isTrue hij =>
          split
          case isTrue hkj => rw [hij, hkj, hu.last, one_mul, mul_one]
          case isFalse => rw [zero_mul, mul_zero]
        case isFalse => rw [zero_mul, mul_zero]
    · have hkj : k ≠ j := fun e => hk (e ▸ le_rfl)
      simp [hu.beyond k hk, hkj]
  · have hij : i ≠ j := fun e => hi (e ▸ le_rfl)
    simp [hu.beyond i hi, hij]

omit [IsStrictOrderedRing F] in
/-- The next pivot is a value of the quadratic form. -/
theorem Decomposes.quadratic_eq {n : ℕ} {s : ℕ → ℕ → F} {cols : Array (FactorColumn F)} {j : Fin n}
    (h : Decomposes n s cols j) (hs : ∀ i k : Fin n, s i k = s k i) {u : Fin n → F} (hu : PivotVector cols j u) :
    u ⬝ᵥ (Matrix.of fun i k : Fin n => s i k) *ᵥ u = nextPivotValue s cols j :=
  calc u ⬝ᵥ (Matrix.of fun i k : Fin n => s i k) *ᵥ u
      = ∑ i : Fin n, ∑ k : Fin n, u i * (s i k * u k) := by
        simp only [dotProduct, mulVec, of_apply, Finset.mul_sum]
    _ = ∑ l ∈ Finset.range j, (∑ i : Fin n, lower cols i l * u i) *
          (pivot cols l * ∑ k : Fin n, lower cols k l * u k) + nextPivotValue s cols j := by
        simp only [h.term_eq hs hu, Finset.sum_add_distrib, Finset.sum_ite_irrel, Finset.sum_ite_eq', Finset.mem_univ,
          if_true, Finset.sum_const_zero]
        congr 1
        rw [Finset.sum_congr rfl fun i _ => Finset.sum_comm, Finset.sum_comm]
        simp only [Finset.sum_mul, Finset.mul_sum]
        exact Finset.sum_congr rfl fun l _ => Finset.sum_comm
    _ = nextPivotValue s cols j := by
        rw [Finset.sum_eq_zero fun l hl => by rw [hu.finished l (Finset.mem_range.mp hl), zero_mul], zero_add]

/-- No pivot fails where the quadratic form stays above the tolerance. -/
theorem exists_factorColumns {n : ℕ} {s : ℕ → ℕ → F} {eps : F} (heps : 0 ≤ eps)
    (hs : ∀ i k : Fin n, s i k = s k i)
    (hform : ∀ u : Fin n → F, (∃ i, u i = 1) → eps < |u ⬝ᵥ (Matrix.of fun i k : Fin n => s i k) *ᵥ u|)
    {j : ℕ} (hj : j ≤ n) : ∃ cols, factorColumns n s eps j = some cols := by
  induction j with
  | zero => exact ⟨#[], rfl⟩
  | succ j ih =>
    obtain ⟨done, hdone⟩ := ih (Nat.le_of_succ_le hj)
    have h := decomposes_of_factorColumns heps hdone
    obtain ⟨u, hu⟩ := Decomposes.exists_pivotVector (j := ⟨j, hj⟩) h
    obtain ⟨c, hc⟩ := factorColumn_isSome (n := n) (h.quadratic_eq hs hu ▸ hform u ⟨_, hu.last⟩)
    exact ⟨done.push c, by simp [factorColumns, hdone, hc]⟩

theorem exists_symmetricInverse {n : ℕ} {a : Array F} {eps : F} (heps : 0 ≤ eps)
    (hs : ∀ i j : Fin n, storedEntry false n a i j = storedEntry false n a j i)
    (hform : ∀ u : Fin n → F, (∃ i, u i = 1) →
      eps < |u ⬝ᵥ (Matrix.of fun i j : Fin n => storedEntry false n a i j) *ᵥ u|) :
    ∃ inv, symmetricInverse? n a eps = some inv := by
  obtain ⟨cols, hcols⟩ := exists_factorColumns heps hs hform le_rfl
  exact ⟨_, by rw [symmetricInverse?, hcols]; rfl⟩

end BlockElimination.Kernel
