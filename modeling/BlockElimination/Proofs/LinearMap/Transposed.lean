import BlockElimination.LinearMap.Action

/-!
# The action of the transpose

A transpose is read in two ways: as a flag that `action` hands down through the map, and as the map that `transpose`
makes. Both compute the same numbers in the same order, so that no law of arithmetic is needed to compare them.
-/
namespace BlockElimination.LinearMap

variable {F : Type} [Arith F]

theorem action_true (K : LinearMap F) (alpha : F) (x : Array F) (beta : F) (y : Array F) :
    K.action true alpha x beta y = K.transpose.action false alpha x beta y := by
  induction K generalizing alpha x beta y with
  | dense d => simp [action, transpose, Dense.action, Dense.transpose]
  | kron a b iha ihb =>
    -- Both passes of a product go through its factors, whose sizes change places with those of their transposes.
    simp [action, transpose, outer, inner, iha, ihb]
  | diag d => rfl
  | scalar n s => rfl

omit [Arith F] in
theorem takes_true (d : Dense F) (x y : Nat) : d.Takes true x y ↔ d.transpose.Takes false x y := by
  simp only [Dense.Takes, Dense.height_transpose, Dense.width_transpose, if_true, Bool.false_eq_true, if_false]
  rfl

theorem checkedAction_true (K : LinearMap F) (alpha : F) (x : Array F) (beta : F) (y : Array F) :
    K.checkedAction true alpha x beta y = K.transpose.checkedAction false alpha x beta y := by
  induction K generalizing alpha x beta y with
  | dense d => simp [checkedAction, transpose, takes_true, Dense.action, Dense.transpose]
  | kron a b iha ihb =>
    have hfits : (kron a.transpose b.transpose).Fits ↔ (kron a b).Fits := fits_transpose (K := kron a b)
    simp [transpose, checkedAction, size_bind, hfits, outer, inner, iha, ihb]
  | diag d => rfl
  | scalar n s => rfl

/-- `α Kᵀ x + β y` is the same whether `K` is read transposed or transposed first, and so is `α K x + β y`: either both
compute the same array or both end in the same fault, for operands of all lengths. -/
theorem actions_transpose (K : LinearMap F) (alpha : F) (x : Array F) (beta : F) (y : Array F) :
    K.transposeActOn alpha x beta y = K.transpose.actOn alpha x beta y ∧
      K.actOn alpha x beta y = K.transpose.transposeActOn alpha x beta y := by
  have hread := checkedAction_true K.transpose alpha x beta y
  rw [transpose_transpose] at hread
  exact ⟨checkedAction_true K alpha x beta y, hread.symm⟩

end BlockElimination.LinearMap
