import BlockElimination.Proofs.Kernel.Indexed
import BlockElimination.Proofs.LinearMap.Arithmetic

/-!
# Products column by column

A matrix product and the action of a matrix are computed by two loops that are written apart. They read the same
entries, and they add the same terms in the same order, so a product of dense maps has for its columns what its left
factor makes of the columns of the right one, to the last bit and in any arithmetic.
-/
namespace BlockElimination.LinearMap

variable {F : Type}

theorem fits_dense {d : Dense F} (hrows : 0 < d.height) (hcols : 0 < d.width)
    (hsize : d.array.value.size < Size.bound) : (dense d).Fits := by
  rw [size_array_eq] at hsize
  exact ⟨(Nat.le_mul_of_pos_right _ hcols).trans_lt hsize, (Nat.le_mul_of_pos_left _ hrows).trans_lt hsize⟩

variable [Arith F] {d e : Dense F} {j : ℕ}

/-- The column `j` of the matrix of a map. -/
def column (K : LinearMap F) (j : ℕ) : Array F := tabulate K.rows fun i => K.entry i j

theorem column_dense (d : Dense F) (j : ℕ) :
    (dense d).column j = Kernel.columnOf d.flipped d.rows d.height d.array.value j := rfl

theorem column_ofColumnMajor {m n : ℕ} {c : Array F} (hc : c.size = m * n) :
    (dense (.ofColumnMajor m n (coord c))).column j = Kernel.columnOf false m m c j := by
  rw [column_dense]
  change Kernel.columnOf false m m (tabulate (m * n) (coord c)) j = _
  rw [← hc, ← eq_tabulate_coord]

theorem mulInto_eq_ok (hfit : d.width = e.height) (hrows : 0 < d.height) (hcols : 0 < e.width) (hinner : 0 < d.width)
    (hd : d.array.value.size < Size.bound) (he : e.array.value.size < Size.bound) {c : Array F}
    (hc : c.size = d.height * e.width) (hbound : d.height * e.width < Size.bound) :
    d.mulInto e c = .ok (d.product e c) := by
  have hsized : d.array.value.size = d.height * d.width := size_array_eq d
  have hsizee : e.array.value.size = d.width * e.width := hfit ▸ size_array_eq e
  rw [Dense.mulInto, Kernel.requireLengths_bind, if_pos hfit, if_pos ⟨hrows, hcols, hinner⟩]
  exact Kernel.multiplyGeneral_eq_ok hsized hsizee hc (hsized ▸ hd) (hsizee ▸ he) hbound 1 0

theorem ofArray_eq_ok {m n : ℕ} {a : Array F} (ha : a.size = m * n) (hbound : m * n < Size.bound) :
    ofArray m n a = .ok (dense (.ofColumnMajor m n (coord a))) := by
  obtain ⟨K, hK⟩ : ∃ K, ofArray m n a = .ok K := by
    rw [ofArray, Dense.ofArray, if_pos hbound, dif_pos ha]
    exact ⟨_, rfl⟩
  rw [hK, (yields_ofArray ha).of_eq_ok hK]

theorem mul_dense_eq (hfit : d.width = e.height) (hrows : 0 < d.height) (hcols : 0 < e.width) (hinner : 0 < d.width)
    (hd : d.array.value.size < Size.bound) (he : e.array.value.size < Size.bound) :
    (dense d).mul (dense e) = if d.height * e.width < Size.capacity then
      .ok (dense (.ofColumnMajor d.height e.width (coord (d.product e (Kernel.zeros (d.height * e.width))))))
    else .error .overflow := by
  have hproduct : (dense d).denseProduct (dense e) = if d.height * e.width < Size.capacity then
      .ok (dense (.ofColumnMajor d.height e.width (coord (d.product e (Kernel.zeros (d.height * e.width))))))
    else .error .overflow := by
    change (Size.storable (d.height * e.width) >>= fun _ =>
      if d.height = 0 ∨ e.width = 0 ∨ d.width = 0 then pure (dense (.zeros d.height e.width))
      else d.mulInto e (Kernel.zeros (d.height * e.width)) >>= fun c => ofArray d.height e.width c) = _
    rw [if_neg (by omega), Size.storable]
    split
    case isTrue hstorable =>
      have hbound : d.height * e.width < Size.bound := hstorable.trans_le Size.capacity_le_bound
      have hzeros : (Kernel.zeros (d.height * e.width) : Array F).size = d.height * e.width := Array.size_replicate
      rw [mulInto_eq_ok hfit hrows hcols hinner hd he hzeros hbound]
      exact ofArray_eq_ok (Kernel.size_matrixProduct ..) hbound
    case isFalse => rfl
  rw [mul, size_of_fits (fits_dense hrows hinner hd), size_of_fits (fits_dense (hfit ▸ hinner) hcols he)]
  change (if d.width ≠ e.height then _ else (dense d).denseProduct (dense e) >>= expectKind _) = _
  rw [if_neg (not_not.mpr hfit), bind_expectKind fun K hK => ?_, hproduct]
  rw [ensures_kind_denseProduct _ _ K hK]
  simp

theorem apply_dense_eq (hrows : 0 < d.height) (hcols : 0 < d.width) (hd : d.array.value.size < Size.bound)
    (hheight : d.height < Size.capacity) {x : Array F} (hx : x.size = d.width) :
    (dense d).apply x =
      .ok (Kernel.matrixAction d.flipped d.rows 1 d.array.value x 0 (Kernel.zeros d.height)) := by
  have hpos : 0 < d.rows ∧ 0 < d.cols := by
    unfold Dense.height at hrows
    unfold Dense.width at hcols
    split at hrows <;> simp_all
  rw [apply_eq_ok (fits_dense hrows hcols hd) trivial hheight hx, action, Dense.action, if_pos hpos, Bool.false_xor]
  rfl

theorem columnOf_zeros (flipped : Bool) (rows m len j : ℕ) :
    Kernel.columnOf flipped rows m (Kernel.zeros len : Array F) j = Kernel.zeros m := by
  have hsize : (Kernel.zeros m : Array F).size = m := Array.size_replicate
  rw [eq_tabulate_coord (Kernel.zeros m : Array F), hsize]
  exact tabulate_congr fun i _ => by simp [Kernel.storedEntry]

theorem columnOf_product (hfit : d.width = e.height) (hj : j < e.width) (len : ℕ) :
    Kernel.columnOf false d.height d.height (d.product e (Kernel.zeros len)) j =
      Kernel.matrixAction d.flipped d.rows 1 d.array.value ((dense e).column j) 0 (Kernel.zeros d.height) := by
  rw [Dense.product, Kernel.columnOf_matrixProduct hj, columnOf_zeros, storedRows_eq_rows, hfit, storedRows_eq_rows]
  rfl

/-- Matrix products are computed like actions on columns. In place, no index is refused, and every column is left as the
action of the left matrix leaves it on a column of the right one, whatever the flags and the numbers are. Hence a product
of dense maps with entries, which exists unless it is too large for an array, has for its columns what the left map makes
of the columns of the right one. -/
theorem product_columns :
    (∀ (flipA flipB : Bool) (m n k : ℕ) (alpha beta : F) (a b c : Array F),
      a.size = m * k → b.size = k * n → c.size = m * n →
      a.size < Size.bound → b.size < Size.bound → c.size < Size.bound →
      ∃ c', Kernel.multiplyInPlace flipA flipB m n k alpha a b beta c = .ok c' ∧ c'.size = m * n ∧
        ∀ j < n, Kernel.transformInPlace flipA (Kernel.storedRows flipA m k) (Kernel.storedRows flipA k m) alpha a
          (Kernel.columnOf flipB (Kernel.storedRows flipB k n) k b j) beta (Kernel.columnOf false m m c j) =
            .ok (Kernel.columnOf false m m c' j)) ∧
    ∀ d e : Dense F, d.width = e.height → 0 < d.height → 0 < e.width → 0 < d.width →
      d.array.value.size < Size.bound → e.array.value.size < Size.bound →
      ((∃ P, (dense d).mul (dense e) = .ok P) ↔ d.height * e.width < Size.capacity) ∧
      ∀ P, (dense d).mul (dense e) = .ok P → P.rows = d.height ∧ P.cols = e.width ∧
        ∀ j < e.width, (dense d).apply ((dense e).column j) = .ok (P.column j) := by
  constructor
  · intro flipA flipB m n k alpha beta a b c ha hb hc hboundA hboundB hboundC
    refine ⟨Kernel.matrixProduct flipA flipB m n k alpha a b beta c, ?_, Kernel.size_matrixProduct .., fun j hj => ?_⟩
    · rw [Kernel.multiplyInPlace_eq]
      exact Kernel.multiplyGeneral_eq_ok ha hb hc (ha ▸ hboundA) (hb ▸ hboundB) (hc ▸ hboundC) alpha beta
    · have hlen : a.size = Kernel.storedRows flipA m k * Kernel.storedRows flipA k m := by
        rw [ha, Kernel.storedRows_mul_storedRows]
      rw [Kernel.transformInPlace_eq, Kernel.columnOf_matrixProduct hj]
      exact Kernel.transformGeneral_eq_ok hlen (hlen ▸ hboundA) (by simp [Kernel.columnOf]) (by simp [Kernel.columnOf])
        alpha beta
  · intro d e hfit hrows hcols hinner hd he
    rw [mul_dense_eq hfit hrows hcols hinner hd he]
    split
    case isTrue hstorable =>
      refine ⟨iff_of_true ⟨_, rfl⟩ hstorable, ?_⟩
      rintro P ⟨⟩
      have hheight : d.height < Size.capacity := (Nat.le_mul_of_pos_right _ hcols).trans_lt hstorable
      refine ⟨rfl, rfl, fun j hj => ?_⟩
      have hcolumn : ((dense e).column j).size = d.width := (size_tabulate _ _).trans hfit.symm
      rw [apply_dense_eq hrows hinner hd hheight hcolumn, ← columnOf_product hfit hj]
      exact congrArg Except.ok (column_ofColumnMajor (Kernel.size_matrixProduct ..)).symm
    case isFalse hstorable =>
      constructor
      · refine iff_of_false ?_ hstorable
        rintro ⟨P, ⟨⟩⟩
      · rintro P ⟨⟩

/-- A map of 2 rows and 3 columns, stored by rows. -/
def byRows : Dense Float := ⟨3, 2, { value := #[1, 2, 3, 4, 5, 6] }, true, rfl⟩

/-- A map of 3 rows and 2 columns, one of whose entries is not a number. -/
def partlyNaN : Dense Float := ⟨3, 2, { value := #[0.1, 0.2, 0 / 0, 1e300, -1e300, 7] }, false, rfl⟩

theorem byRows_partlyNaN_columns :
    (∃ c, Kernel.multiplyInPlace true false 2 2 3 0.5 byRows.array.value partlyNaN.array.value 2 #[1, 2, 3, 4] = .ok c ∧
      Kernel.transformInPlace true 3 2 0.5 byRows.array.value (Kernel.columnOf false 3 3 partlyNaN.array.value 1) 2
        (Kernel.columnOf false 2 2 #[1, 2, 3, 4] 1) = .ok (Kernel.columnOf false 2 2 c 1)) ∧
    ∃ P, (dense byRows).mul (dense partlyNaN) = .ok P ∧
      (dense byRows).apply ((dense partlyNaN).column 1) = .ok (P.column 1) := by
  obtain ⟨hkernels, hmaps⟩ := product_columns (F := Float)
  obtain ⟨c, hc, -, hcolumns⟩ := hkernels true false 2 2 3 0.5 2 byRows.array.value partlyNaN.array.value #[1, 2, 3, 4]
    rfl rfl rfl (by decide) (by decide) (by decide)
  obtain ⟨hexists, happly⟩ := hmaps byRows partlyNaN rfl (by decide) (by decide) (by decide) (by decide) (by decide)
  obtain ⟨P, hP⟩ := hexists.mpr (by decide)
  exact ⟨⟨c, hc, hcolumns 1 (by decide)⟩, P, hP, (happly P hP).2.2 1 (by decide)⟩

end BlockElimination.LinearMap
