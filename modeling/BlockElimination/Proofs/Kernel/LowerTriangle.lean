import BlockElimination.LinearMap.Dense
import BlockElimination.Proofs.Kernel.Workspace

/-!
# Only the lower triangle counts

The decomposition reads its matrix below and on the diagonal. So an inverse depends neither on the entries above the
diagonal nor on what the workspace held, and a flipped dense map has the inverse of the map.
-/
namespace BlockElimination.Kernel

variable {F : Type} [Scalar F] {n : ℕ} {s t : ℕ → ℕ → F} {eps : F}

theorem factorColumn_congr {done : Array (FactorColumn F)} {j : ℕ} (hj : j < n)
    (h : ∀ i < n, j ≤ i → s i j = t i j) : factorColumn n s eps done j = factorColumn n t eps done j := by
  simp only [factorColumn, h j hj le_rfl]
  split
  case isTrue => rfl
  case isFalse =>
    congr 2
    refine tabulate_congr fun i hi => ?_
    split
    case isTrue => rfl
    case isFalse hij => rw [h i hi (by omega)]

theorem factorColumns_congr (h : ∀ i < n, ∀ j ≤ i, s i j = t i j) {j : ℕ} (hj : j ≤ n) :
    factorColumns n s eps j = factorColumns n t eps j := by
  induction j with
  | zero => rfl
  | succ j ih =>
    have hcolumn : ∀ done, factorColumn n s eps done j = factorColumn n t eps done j := fun done =>
      factorColumn_congr hj fun i hi hji => h i hi j hji
    simp only [factorColumns, ih (Nat.le_of_succ_le hj), hcolumn]

/-- The arrays hold the same entries below and on the diagonal. -/
def SameLower (n : ℕ) (a b : Array F) : Prop :=
  ∀ i < n, ∀ j ≤ i, storedEntry false n a i j = storedEntry false n b i j

variable {a b work work' : Array F}

theorem SameLower.symmetricInverse?_eq (h : SameLower n a b) (eps : F) :
    symmetricInverse? n a eps = symmetricInverse? n b eps := by
  rw [symmetricInverse?, symmetricInverse?, factorColumns_congr h le_rfl]

theorem workLength_eq (n : ℕ) : workLength n = if n + n * n < Size.bound then .ok (n + n * n) else .error .overflow := by
  simp only [workLength, Size.mul, Size.add]
  split_ifs
  · simp [bind, Except.bind, *]
  · simp [bind, Except.bind, *]
  · omega
  · rfl

/-- The inverse in place is the inverse, if the lengths are as asked for and in range. -/
theorem invertSymmetric_eq (ha : a.size = n * n) (hwork : n + n * n ≤ work.size) (eps : F) :
    invertSymmetric n a eps work =
      if n + n * n < Size.bound then .ok (symmetricInverse? n a eps) else .error .overflow := by
  have hrun : ∀ need, requireLengths (a.size = n * n) >>= (fun _ => need >>= fun m =>
      if m ≤ work.size then pure (symmetricInverse? n a eps) else throw .workspace) = need >>= fun m =>
        if m ≤ work.size then pure (symmetricInverse? n a eps) else throw .workspace := fun need => by
    rw [requireLengths_bind, if_pos ha]
  rw [invertSymmetric, workLength_eq, invertInPlace_eq ha hwork, Size.mul]
  by_cases hneed : n + n * n < Size.bound
  case pos =>
    rw [if_pos (Nat.lt_of_le_of_lt (Nat.le_add_left _ _) hneed), if_pos hneed, if_pos hneed]
    exact (hrun (.ok (n + n * n))).trans (if_pos hwork)
  case neg =>
    rw [if_neg hneed, if_neg hneed]
    by_cases hlen : n * n < Size.bound
    case pos =>
      rw [if_pos hlen]
      exact hrun (.error .overflow)
    case neg =>
      rw [if_neg hlen]
      rfl

end BlockElimination.Kernel

namespace BlockElimination

variable {F : Type} [Scalar F]

theorem Dense.inverse_eq_of_sameLower {d e : Dense F} (hd : d.height = d.width) (hheight : e.height = d.height)
    (hwidth : e.width = d.width) (h : Kernel.SameLower d.height d.array.value e.array.value) (eps : F) :
    e.inverse eps = d.inverse eps := by
  rw [Dense.inverse, Dense.inverse, hheight, hwidth, if_pos hd, if_pos hd, h.symmetricInverse?_eq]

/-- The inverse of a dense map is computed in place, in any workspace that is long enough. -/
theorem Dense.inverse_eq_invertInPlace {d : Dense F} (hd : d.height = d.width) {work : Array F}
    (hwork : d.height + d.height * d.height ≤ work.size) (eps : F) :
    d.inverse eps =
      Outcome.report (.factoringDense d.height d.width) >>= fun _ =>
        match Kernel.invertInPlace d.height d.array.value eps work with
        | some a => .ok (.ofColumnMajor d.height d.height (coord a))
        | none => .error .singular := by
  have hsize : d.array.value.size = d.height * d.height := by
    rw [d.size_array]
    cases hflag : d.flipped <;> simp_all [height, width]
  rw [Kernel.invertInPlace_eq hsize hwork]
  exact if_pos hd

/-- Entries above the diagonal, the flag of a dense map and the contents of the workspace leave no trace in an inverse,
not even in what has a decomposition. -/
theorem inverse_determined_by_lower_triangle (eps : F) :
    (∀ (n : ℕ) (a b work work' : Array F), a.size = n * n → b.size = n * n → Kernel.SameLower n a b →
      n + n * n ≤ work.size → n + n * n ≤ work'.size →
        Kernel.invertSymmetric n a eps work = Kernel.invertSymmetric n b eps work' ∧
          (n + n * n < Size.bound → ∃ r, Kernel.invertSymmetric n a eps work = .ok r)) ∧
      ∀ d : Dense F, d.height = d.width → d.transpose.inverse eps = d.inverse eps ∧
        ∀ e : Dense F, e.height = d.height → e.width = d.width →
          Kernel.SameLower d.height d.array.value e.array.value → e.inverse eps = d.inverse eps := by
  constructor
  · intro n a b work work' ha hb h hwork hwork'
    rw [Kernel.invertSymmetric_eq ha hwork, Kernel.invertSymmetric_eq hb hwork', h.symmetricInverse?_eq]
    exact ⟨rfl, fun hn => ⟨_, if_pos hn⟩⟩
  · intro d hd
    refine ⟨?_, fun e hheight hwidth h => Dense.inverse_eq_of_sameLower hd hheight hwidth h eps⟩
    exact Dense.inverse_eq_of_sameLower (e := d.transpose) hd (by rw [Dense.height_transpose, hd])
      (by rw [Dense.width_transpose, hd]) (fun _ _ _ _ => rfl) eps

def mirroredSquare : Dense ℚ := ⟨2, 2, { value := #[4, 1, 1, 3] }, false, rfl⟩

/-- The same lower triangle under another entry. -/
def lopsidedSquare : Dense ℚ := ⟨2, 2, { value := #[4, 1, 9, 3] }, true, rfl⟩

theorem inverse_lopsidedSquare :
    (Kernel.invertSymmetric 2 #[4, 1, 9, 3] 0 #[7, 7, 7, 7, 7, 7] =
        Kernel.invertSymmetric 2 #[4, 1, 1, 3] 0 (Kernel.zeros 8 : Array ℚ) ∧
      ∃ r, Kernel.invertSymmetric 2 #[4, 1, 9, 3] (0 : ℚ) #[7, 7, 7, 7, 7, 7] = .ok r) ∧
      lopsidedSquare.transpose.inverse 0 = lopsidedSquare.inverse 0 ∧
        lopsidedSquare.inverse 0 = mirroredSquare.inverse 0 := by
  obtain ⟨kernel, square⟩ := inverse_determined_by_lower_triangle (0 : ℚ)
  have hpair := kernel 2 #[4, 1, 9, 3] #[4, 1, 1, 3] #[7, 7, 7, 7, 7, 7] (Kernel.zeros 8) rfl rfl
    (by unfold Kernel.SameLower; decide +kernel) (by decide) (by decide)
  exact ⟨⟨hpair.1, hpair.2 (by decide)⟩, (square lopsidedSquare rfl).1,
    (square mirroredSquare rfl).2 lopsidedSquare rfl rfl (by unfold Kernel.SameLower; decide +kernel)⟩

end BlockElimination
