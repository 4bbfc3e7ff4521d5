import BlockElimination.Proofs.LinearMap.Columns
import BlockElimination.Proofs.LinearMap.Sums

/-!
# Maps whose entries can be stored

A map with rows and columns is at least as large as each of its factors. If an array can hold all of its entries, then
no size in it leaves its range: it can be written out, its actions get their buffers, and it has sums and products
whenever the results can be stored as well.
-/
namespace BlockElimination

theorem requireLengths_ne_overflow (p : Prop) [Decidable p] : Kernel.requireLengths p ≠ .error .overflow := by
  unfold Kernel.requireLengths
  split <;> simp

namespace LinearMap

variable {F : Type} {K L : LinearMap F} {m k n : ℕ}

/-- The map has rows and columns, and an array can hold all of its entries. -/
structure Storable (K : LinearMap F) : Prop where
  rows_pos : 0 < K.rows
  cols_pos : 0 < K.cols
  room : K.rows * K.cols < Size.capacity

theorem Sized.storable (hK : K.Sized m n) (hm : 0 < m) (hn : 0 < n) (hroom : m * n < Size.capacity) : K.Storable := by
  obtain ⟨rfl, rfl⟩ := hK
  exact ⟨hm, hn, hroom⟩

/-- Neither factor has more entries than the product. -/
theorem Storable.factors {a b : LinearMap F} (h : (kron a b).Storable) : a.Storable ∧ b.Storable := by
  obtain ⟨hrows, hcols, hroom⟩ := h
  have har := Nat.pos_of_mul_pos_right hrows
  have hbr := Nat.pos_of_mul_pos_left hrows
  have hac := Nat.pos_of_mul_pos_right hcols
  have hbc := Nat.pos_of_mul_pos_left hcols
  refine ⟨⟨har, hac, lt_of_le_of_lt ?_ hroom⟩, ⟨hbr, hbc, lt_of_le_of_lt ?_ hroom⟩⟩
  · exact Nat.mul_le_mul (Nat.le_mul_of_pos_right _ hbr) (Nat.le_mul_of_pos_right _ hbc)
  · exact Nat.mul_le_mul (Nat.le_mul_of_pos_left _ har) (Nat.le_mul_of_pos_left _ hac)

theorem Storable.rows_lt (h : K.Storable) : K.rows < Size.bound :=
  (Nat.le_mul_of_pos_right _ h.cols_pos).trans_lt (h.room.trans_le Size.capacity_le_bound)

theorem Storable.cols_lt (h : K.Storable) : K.cols < Size.bound :=
  (Nat.le_mul_of_pos_left _ h.rows_pos).trans_lt (h.room.trans_le Size.capacity_le_bound)

theorem Storable.fits (h : K.Storable) : K.Fits := by
  induction K with
  | dense d => exact ⟨h.rows_lt, h.cols_lt⟩
  | kron a b iha ihb => exact ⟨iha h.factors.1, ihb h.factors.2, h.rows_lt, h.cols_lt⟩
  | diag d => exact h.rows_lt
  | scalar n alpha => exact h.rows_lt

theorem Storable.writable (h : K.Storable) : K.Writable := by
  induction K with
  | dense d => trivial
  | kron a b iha ihb => exact ⟨h.fits, iha h.factors.1, ihb h.factors.2, h.room⟩
  | diag d => exact h.room
  | scalar n alpha => exact h.room

theorem outer_mul_inner (K : LinearMap F) (flip : Bool) : K.outer flip * K.inner flip = K.rows * K.cols := by
  cases flip
  · rfl
  · exact Nat.mul_comm _ _

/-- The buffer of an action holds the rows of one factor for each column of the other. -/
theorem Storable.buffered (h : K.Storable) (flip : Bool) : K.Buffered flip := by
  induction K with
  | kron a b iha ihb =>
    obtain ⟨ha, hb⟩ := h.factors
    refine .inr ⟨lt_of_le_of_lt ?_ h.room, ihb hb, iha ha⟩
    have hpos : 0 < a.outer flip * b.inner flip := by
      cases flip
      · exact Nat.mul_pos ha.rows_pos hb.cols_pos
      · exact Nat.mul_pos ha.cols_pos hb.rows_pos
    calc b.outer flip * a.inner flip ≤ b.outer flip * a.inner flip * (a.outer flip * b.inner flip) :=
          Nat.le_mul_of_pos_right _ hpos
      _ = a.outer flip * b.outer flip * (a.inner flip * b.inner flip) := by ring
      _ = (kron a b).rows * (kron a b).cols := by
          rw [← outer_kron, ← inner_kron, outer_mul_inner]
  | _ => trivial

theorem Storable.size_array_lt {d : Dense F} (h : (dense d).Storable) : d.array.value.size < Size.bound :=
  (size_array_eq d).trans_lt (h.room.trans_le Size.capacity_le_bound)

theorem expectKind_ne_overflow (kinds : List Kind) (K : LinearMap F) : K.expectKind kinds ≠ .error .overflow := by
  unfold expectKind
  split <;> simp

theorem ofArray_ne_overflow {a : Array F} (h : m * n < Size.bound) : ofArray m n a ≠ .error .overflow := by
  refine map_ne_overflow ?_
  rw [Dense.ofArray, if_pos h]
  split <;> simp

section Arithmetic
variable [Arith F]

theorem Storable.mapM_checkedAction_ne_overflow (h : K.Storable) (flip : Bool) {operand : ℕ → Array F} {y : Array F}
    (hx : ∀ i, (operand i).size = K.inner flip) (hy : y.size = K.outer flip) (l : List ℕ) :
    l.mapM (fun i => K.checkedAction flip 1 (operand i) 0 y) ≠ .error .overflow :=
  ne_overflow_of_eq_ok (mapM_eq_ok fun i _ =>
    (checkedAction_eq (fun _ => h.fits) (hx i) hy).trans (if_pos (h.buffered flip)))

variable (hK : K.Storable) (hL : L.Storable) (hfit : K.cols = L.rows) (hroom : K.rows * L.cols < Size.capacity)
include hK hL hfit hroom

theorem Storable.denseProduct_ne_overflow : K.denseProduct L ≠ .error .overflow := by
  have hbound : K.rows * L.cols < Size.bound := hroom.trans_le Size.capacity_le_bound
  unfold denseProduct
  refine bind_ne_overflow (ne_overflow_of_eq_ok (Size.storable_eq_ok_iff.mpr hroom)) fun u hu => ?_
  split
  case isTrue => exact pure_ne_overflow _
  case isFalse hentries =>
    split
    case h_1 a b =>
      have hzeros : (Kernel.zeros (a.height * b.width) : Array F).size = a.height * b.width := Array.size_replicate
      have hproduct := mulInto_eq_ok hfit hK.rows_pos hL.cols_pos hK.cols_pos hK.size_array_lt hL.size_array_lt hzeros
        hbound
      exact bind_ne_overflow (ne_overflow_of_eq_ok hproduct) fun _ _ => ofArray_ne_overflow hbound
    case h_2 c d =>
      refine bind_ne_overflow (ne_overflow_of_eq_ok (toColumnMajor_eq_ok_iff.mpr ⟨hK.writable, rfl⟩)) fun _ _ => ?_
      refine bind_ne_overflow (hL.mapM_checkedAction_ne_overflow true (fun i => (size_tabulate _ _).trans hfit)
        Array.size_replicate _) fun _ _ => ?_
      refine bind_ne_overflow ?_ fun _ _ => ofArray_ne_overflow hbound
      refine bind_ne_overflow (sizeMul_ne_overflow (Nat.mul_comm .. ▸ hbound)) fun _ _ => ?_
      exact bind_ne_overflow (requireLengths_ne_overflow _) fun _ _ => pure_ne_overflow _
    case h_3 =>
      refine bind_ne_overflow (ne_overflow_of_eq_ok (toColumnMajor_eq_ok_iff.mpr ⟨hL.writable, rfl⟩)) fun _ _ => ?_
      refine bind_ne_overflow (hK.mapM_checkedAction_ne_overflow false (fun i => size_tabulate _ _)
        Array.size_replicate _) fun _ _ => ?_
      exact ofArray_ne_overflow hbound

/-- A product, given those of the factors where two Kronecker products meet. -/
theorem Storable.mul_ne_overflow_of_factors (factors : ∀ a b c d, K = kron a b → L = kron c d → Chains a b c d →
    a.mul c ≠ .error .overflow ∧ b.mul d ≠ .error .overflow) : K.mul L ≠ .error .overflow := by
  have hwritten := hK.denseProduct_ne_overflow hL hfit hroom
  rw [mul.eq_def, size_of_fits hK.fits, size_of_fits hL.fits]
  change (if K.cols ≠ L.rows then _ else _) ≠ _
  rw [if_neg (not_not.mpr hfit)]
  split
  · exact expectKind_ne_overflow _ _
  · exact expectKind_ne_overflow _ _
  · refine bind_ne_overflow (map_ne_overflow ?_) fun P _ => expectKind_ne_overflow _ P
    exact bind_ne_overflow (requireLengths_ne_overflow _) fun _ _ => pure_ne_overflow _
  · split
    case isTrue hchains =>
      obtain ⟨hleft, hright⟩ := factors _ _ _ _ rfl rfl hchains
      refine bind_ne_overflow hleft fun P _ => bind_ne_overflow hright fun Q _ => ?_
      exact bind_ne_overflow (pure_ne_overflow (kron P Q)) fun R _ => expectKind_ne_overflow _ R
    case isFalse => exact bind_ne_overflow hwritten fun P _ => expectKind_ne_overflow _ P
  · exact bind_ne_overflow hwritten fun P _ => expectKind_ne_overflow _ P

theorem Storable.mul_ne_overflow : K.mul L ≠ .error .overflow := by
  induction K generalizing L with
  | dense a => exact hK.mul_ne_overflow_of_factors hL hfit hroom fun _ _ _ _ h => nomatch h
  | diag a => exact hK.mul_ne_overflow_of_factors hL hfit hroom fun _ _ _ _ h => nomatch h
  | scalar p s => exact hK.mul_ne_overflow_of_factors hL hfit hroom fun _ _ _ _ h => nomatch h
  | kron a b iha ihb =>
    apply hK.mul_ne_overflow_of_factors hL hfit hroom
    rintro _ _ c d ⟨⟩ rfl ⟨hac, hbd⟩
    obtain ⟨ha, hb⟩ := hK.factors
    obtain ⟨hc, hd⟩ := hL.factors
    refine ⟨iha ha hc hac (lt_of_le_of_lt ?_ hroom), ihb hb hd hbd (lt_of_le_of_lt ?_ hroom)⟩
    · exact Nat.mul_le_mul (Nat.le_mul_of_pos_right _ hb.rows_pos) (Nat.le_mul_of_pos_right _ hd.cols_pos)
    · exact Nat.mul_le_mul (Nat.le_mul_of_pos_left _ ha.rows_pos) (Nat.le_mul_of_pos_left _ hc.cols_pos)

theorem Storable.exists_mul_eq_ok : ∃ P, K.mul L = .ok P ∧ P.Sized K.rows L.cols :=
  (Sized.yields_mul ⟨rfl, rfl⟩ ⟨hfit.symm, rfl⟩).exists_of_ne (hK.mul_ne_overflow hL hfit hroom)

omit hfit hroom in
theorem Storable.exists_add_eq_ok (hsize : L.Sized K.rows K.cols) :
    ∃ P, K.add L = .ok P ∧ P.Sized K.rows K.cols := by
  have haddable : Addable K L := ⟨hK.fits, hL.fits, .inr ⟨hK.writable, hL.writable⟩⟩
  obtain ⟨P, hP⟩ := haddable.exists_add_eq_ok ⟨rfl, rfl⟩ hsize
  exact ⟨P, hP, (Sized.yields_add ⟨rfl, rfl⟩ hsize).of_eq_ok hP⟩

end Arithmetic

end LinearMap

end BlockElimination
