import BlockElimination.Proofs.LinearMap.Sums
import BlockElimination.Proofs.LinearMap.Written

/-!
# Sums, differences, multiples and transposes written out

Sums and differences, multiples, negatives and transposes have the size and the kind that their operands determine, and
they write out as the matrices that these operations make of the written-out operands. Only sums and differences can be
refused, and unless a size leaves its range this is for operands of different sizes.
-/
namespace BlockElimination.LinearMap

open Matrix

section Sizes
variable {F : Type} [Arith F] {K L : LinearMap F}

@[simp] theorem fits_scale {alpha : F} : (K.scale alpha).Fits ↔ K.Fits := by
  induction K with
  | dense d => exact Iff.rfl
  | kron a b iha _ => simp only [scale, fits_kron, iha, rows_scale, cols_scale]
  | diag d => simp [scale, ofDiagonal, Fits]
  | scalar n s => exact Iff.rfl

@[simp] theorem writable_scale {alpha : F} : (K.scale alpha).Writable ↔ K.Writable := by
  induction K with
  | dense d => exact Iff.rfl
  | kron a b iha _ =>
    have hfits : (kron (a.scale alpha) b).Fits ↔ (kron a b).Fits := fits_scale (K := kron a b)
    simp only [scale, Writable, hfits, iha, rows_scale, cols_scale]
  | diag d => simp [scale, ofDiagonal, Writable]
  | scalar n s => exact Iff.rfl

omit [Arith F] in
@[simp] theorem writable_transpose : K.transpose.Writable ↔ K.Writable := by
  induction K with
  | dense d => exact Iff.rfl
  | kron a b iha ihb =>
    have hfits : (kron a.transpose b.transpose).Fits ↔ (kron a b).Fits := fits_transpose (K := kron a b)
    simp only [transpose, Writable, hfits, iha, ihb, rows_transpose, cols_transpose,
      Nat.mul_comm (a.cols * b.cols) (a.rows * b.rows)]
  | diag d => exact Iff.rfl
  | scalar n s => exact Iff.rfl

theorem addable_neg : Addable K L.neg ↔ Addable K L := by
  have hkind : L.neg.kind = L.kind := kind_scale (-1) L
  have hfits : L.neg.Fits ↔ L.Fits := fits_scale
  have hwritable : L.neg.Writable ↔ L.Writable := writable_scale
  constructor
  · rintro ⟨hK, hL, hstored⟩
    exact ⟨hK, hfits.mp hL, by rwa [hkind, hwritable] at hstored⟩
  · rintro ⟨hK, hL, hstored⟩
    exact ⟨hK, hfits.mpr hL, by rwa [hkind, hwritable]⟩

/-- Operands of different sizes are refused before anything is computed. -/
theorem add_of_not_sized (h : ¬L.Sized K.rows K.cols) :
    K.add L = if K.Fits ∧ L.Fits then .error (.sumShape (K.rows, K.cols) (L.rows, L.cols)) else .error .overflow := by
  have hne : (K.rows, K.cols) ≠ (L.rows, L.cols) := fun heq =>
    h ⟨(congrArg Prod.fst heq).symm, (congrArg Prod.snd heq).symm⟩
  unfold add
  by_cases hfits : K.Fits ∧ L.Fits
  · rw [if_pos hfits, size_of_fits hfits.1, size_of_fits hfits.2]
    exact if_pos hne
  · rw [if_neg hfits]
    by_cases hK : K.Fits
    · have hL : L.size = .error .overflow := if_neg fun hL => hfits ⟨hK, hL⟩
      rw [size_of_fits hK, hL]
      rfl
    · have hK : K.size = .error .overflow := if_neg hK
      rw [hK]
      rfl

end Sizes

variable {F : Type} [CommRing F] [DecidableEq F] {m n : ℕ}

/-- The map is written out as an array that holds the matrix `M`. -/
def WritesOut (K : LinearMap F) (M : Matrix (Fin m) (Fin n) F) : Prop :=
  ∃ a, K.toColumnMajor = .ok a ∧ a.size = m * n ∧ columnMajor m n a = M

theorem Sized.writesOut_iff {K : LinearMap F} (hK : K.Sized m n) {M : Matrix (Fin m) (Fin n) F} :
    K.WritesOut M ↔ K.Writable ∧ M = K.matrix m n := by
  constructor
  · rintro ⟨a, ha, -, rfl⟩
    exact ⟨(toColumnMajor_eq_ok_iff.mp ha).1, hK.columnMajor_eq ha⟩
  · rintro ⟨hwritable, rfl⟩
    have ha := toColumnMajor_eq_ok_iff.mpr ⟨hwritable, rfl⟩
    refine ⟨K.entries, ha, ?_, hK.columnMajor_eq ha⟩
    rw [size_entries, hK.1, hK.2]

/-- What becomes of a sum of `K` and `L`, or of a difference, where `op` is the operation on matrices. -/
structure Combines (op : Matrix (Fin m) (Fin n) F → Matrix (Fin m) (Fin n) F → Matrix (Fin m) (Fin n) F)
    (K L : LinearMap F) (e : Except Fault (LinearMap F)) : Prop where
  refused_iff : (∃ f, e = .error f) ↔ ¬Addable K L ∨ ¬L.Sized K.rows K.cols
  fault_eq : ∀ f, e = .error f → f = .overflow ∧ ¬Addable K L ∨
    f = .sumShape (K.rows, K.cols) (L.rows, L.cols) ∧ ¬L.Sized K.rows K.cols
  sized : ∀ P, e = .ok P → P.Sized m n
  kind_eq : ∀ P, e = .ok P → P.kind = Operation.add.resultKind K.kind L.kind
  writesOut : ∀ P M N, e = .ok P → K.WritesOut M → L.WritesOut N → P.WritesOut (op M N)

/-- `P` is `K` multiplied by `alpha`. -/
structure IsMultiple (alpha : F) (K P : LinearMap F) : Prop where
  sized : P.Sized K.rows K.cols
  kind_eq : P.kind = K.kind
  writesOut : ∀ M : Matrix (Fin K.rows) (Fin K.cols) F, K.WritesOut M → P.WritesOut (alpha • M)

/-- `P` is the transpose of `K`. -/
structure IsTranspose (K P : LinearMap F) : Prop where
  sized : P.Sized K.cols K.rows
  kind_eq : P.kind = K.kind
  writesOut : ∀ M : Matrix (Fin K.rows) (Fin K.cols) F, K.WritesOut M → P.WritesOut Mᵀ

theorem isMultiple_scale (alpha : F) (K : LinearMap F) : IsMultiple alpha K (K.scale alpha) := by
  have hK : K.Sized K.rows K.cols := ⟨rfl, rfl⟩
  refine ⟨hK.scale alpha, kind_scale alpha K, fun M hM => ?_⟩
  obtain ⟨hwritable, rfl⟩ := hK.writesOut_iff.mp hM
  exact (hK.scale alpha).writesOut_iff.mpr ⟨writable_scale.mpr hwritable, (matrix_scale alpha K _ _).symm⟩

theorem isTranspose_transpose (K : LinearMap F) : IsTranspose K K.transpose := by
  have hK : K.Sized K.rows K.cols := ⟨rfl, rfl⟩
  refine ⟨hK.transpose, kind_transpose K, fun M hM => ?_⟩
  obtain ⟨hwritable, rfl⟩ := hK.writesOut_iff.mp hM
  exact hK.transpose.writesOut_iff.mpr ⟨writable_transpose.mpr hwritable, (matrix_transpose K _ _).symm⟩

theorem writable_of_add_eq_ok {K L P : LinearMap F} (h : K.add L = .ok P) (hK : K.Writable) : P.Writable := by
  obtain ⟨hL, hP⟩ := ensures_add K L P h
  have hKs : K.Sized K.rows K.cols := ⟨rfl, rfl⟩
  have hkind := (hKs.yields_kind_add hL).of_eq_ok h
  by_cases hspecial : K.kind.IsSpecial ∧ L.kind.IsSpecial
  · -- The sum stores a diagonal of the same length.
    rw [hP.writable_iff_of_isSpecial (hkind ▸ Kind.isSpecial_ofSum.mpr hspecial)]
    exact (hKs.writable_iff_of_isSpecial hspecial.1).mp hK
  · exact writable_of_kind_eq_dense (hkind.trans (Kind.ofSum_eq_dense_iff.mpr hspecial))

theorem exists_add_eq_error_iff {K L : LinearMap F} :
    (∃ f, K.add L = .error f) ↔ ¬Addable K L ∨ ¬L.Sized K.rows K.cols := by
  constructor
  · rintro ⟨f, hf⟩
    by_contra hboth
    obtain ⟨haddable, hL⟩ := not_or.mp hboth
    obtain ⟨P, hP⟩ := (not_not.mp haddable).exists_add_eq_ok ⟨rfl, rfl⟩ (not_not.mp hL)
    cases hf.symm.trans hP
  · intro hnot
    cases hadd : K.add L with
    | error f => exact ⟨f, rfl⟩
    | ok P => exact (hnot.elim (· (addable_of_add_eq_ok hadd)) (· (ensures_add K L P hadd).1)).elim

/-- Nothing but a size out of range or a difference of the sizes refuses a sum. -/
theorem fault_of_add_eq_error {K L : LinearMap F} {f : Fault} (h : K.add L = .error f) :
    f = .overflow ∧ ¬Addable K L ∨ f = .sumShape (K.rows, K.cols) (L.rows, L.cols) ∧ ¬L.Sized K.rows K.cols := by
  have hK : K.Sized K.rows K.cols := ⟨rfl, rfl⟩
  by_cases hL : L.Sized K.rows K.cols
  · refine .inl ⟨?_, (exists_add_eq_error_iff.mp ⟨f, h⟩).resolve_right (not_not.mpr hL)⟩
    have hyields := hK.yields_add hL
    rw [h] at hyields
    exact hyields
  · rw [add_of_not_sized hL] at h
    split at h
    case isTrue => exact .inr ⟨(Except.error.inj h).symm, hL⟩
    case isFalse hfits =>
      exact .inl ⟨(Except.error.inj h).symm, fun haddable => hfits ⟨haddable.fits_left, haddable.fits_right⟩⟩

theorem combines_add (K L : LinearMap F) :
    Combines (m := K.rows) (n := K.cols) (· + ·) K L (K.add L) := by
  have hK : K.Sized K.rows K.cols := ⟨rfl, rfl⟩
  have hsum : ∀ P, K.add L = .ok P → L.Sized K.rows K.cols ∧ P.Sized K.rows K.cols := ensures_add K L
  refine ⟨exists_add_eq_error_iff, fun f => fault_of_add_eq_error, fun P hP => (hsum P hP).2, fun P hP => ?_, ?_⟩
  · exact (hK.yields_kind_add (hsum P hP).1).of_eq_ok hP
  · intro P M N hP hM hN
    obtain ⟨hL, hsized⟩ := hsum P hP
    obtain ⟨hwritable, rfl⟩ := hK.writesOut_iff.mp hM
    obtain ⟨-, rfl⟩ := hL.writesOut_iff.mp hN
    obtain ⟨-, hmatrix, -⟩ := (yields_add hK hL).of_eq_ok hP
    exact hsized.writesOut_iff.mpr ⟨writable_of_add_eq_ok hP hwritable, hmatrix.symm⟩

/-- A difference adds the negative, which has the size, the kind and the range of sizes of the subtrahend. -/
theorem combines_sub (K L : LinearMap F) :
    Combines (m := K.rows) (n := K.cols) (· - ·) K L (K.sub L) := by
  obtain ⟨hrefused, hfault, hsized, hkind, hwrites⟩ := combines_add K L.neg
  have hsizes : L.neg.Sized K.rows K.cols ↔ L.Sized K.rows K.cols := by simp only [Sized, neg, rows_scale, cols_scale]
  have hkinds : L.neg.kind = L.kind := kind_scale (-1) L
  have hshape : (L.neg.rows, L.neg.cols) = (L.rows, L.cols) := by simp only [neg, rows_scale, cols_scale]
  rw [addable_neg, hsizes] at hrefused
  rw [addable_neg, hsizes, hshape] at hfault
  rw [hkinds] at hkind
  refine ⟨hrefused, hfault, hsized, hkind, fun P M N hP hM hN => ?_⟩
  obtain ⟨hL, -⟩ := ensures_add K L.neg P hP
  obtain ⟨hLw, rfl⟩ := (hsizes.mp hL).writesOut_iff.mp hN
  have hnegative := hwrites P M _ hP hM (hL.writesOut_iff.mpr ⟨writable_scale.mpr hLw, rfl⟩)
  rwa [neg, matrix_scale, neg_smul, one_smul, ← sub_eq_add_neg] at hnegative

/-- Unless a size leaves its range, a sum and a difference are refused exactly for operands of different sizes, and for
that reason: no assertion on a length or a kind fails. Every sum and every difference has the size of its operands, the
kind that theirs determine, and the entrywise sum or difference of the matrices. Multiples, negatives and transposes
always exist, have the kind of the map, and write out accordingly. -/
theorem entrywise (K L : LinearMap F) (alpha : F) :
    Combines (m := K.rows) (n := K.cols) (· + ·) K L (K.add L) ∧
    Combines (m := K.rows) (n := K.cols) (· - ·) K L (K.sub L) ∧
    IsMultiple alpha K (K.scale alpha) ∧ IsMultiple (-1) K K.neg ∧ IsTranspose K K.transpose :=
  ⟨combines_add K L, combines_sub K L, isMultiple_scale alpha K, isMultiple_scale (-1) K, isTranspose_transpose K⟩

/-- A dense map of the size of `nested`. -/
def table : LinearMap ℤ := .ofEntries 2 8 fun i j => i * j

theorem nested_sub_table : (∃ P, nested.sub table = .ok P ∧ P.kind = .dense ∧
      ∃ M N : Matrix (Fin nested.rows) (Fin nested.cols) ℤ, nested.WritesOut M ∧ table.WritesOut N ∧
        P.WritesOut (M - N) ∧ nested.transpose.WritesOut Mᵀ) ∧
    nested.add (.ofScalar 2 1) = .error (.sumShape (2, 8) (2, 2)) := by
  obtain ⟨hadd, -⟩ := entrywise nested (.ofScalar 2 1) 1
  obtain ⟨-, hsub, -, -, htranspose⟩ := entrywise nested table 1
  constructor
  · obtain ⟨P, hP⟩ := exists_eq_ok (show (nested.sub table).toBool = true by decide +kernel)
    have hM : nested.WritesOut (nested.matrix nested.rows nested.cols) :=
      (Sized.writesOut_iff ⟨rfl, rfl⟩).mpr ⟨by decide +kernel, rfl⟩
    have hN : table.WritesOut (table.matrix nested.rows nested.cols) :=
      (Sized.writesOut_iff ⟨rfl, rfl⟩).mpr ⟨trivial, rfl⟩
    exact ⟨P, hP, hsub.kind_eq P hP, _, _, hM, hN, hsub.writesOut P _ _ hP hM hN, htranspose.writesOut _ hM⟩
  · have haddable : Addable nested (.ofScalar 2 1) :=
      ⟨by decide +kernel, by decide +kernel, .inr ⟨by decide +kernel, by decide +kernel⟩⟩
    obtain ⟨f, hf⟩ := hadd.refused_iff.mpr (.inr fun h => absurd h.2 (by decide +kernel))
    obtain ⟨rfl, -⟩ := (hadd.fault_eq f hf).resolve_left fun h => h.2 haddable
    exact hf

end BlockElimination.LinearMap
