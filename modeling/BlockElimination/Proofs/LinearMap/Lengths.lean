import BlockElimination.Proofs.Exact
import BlockElimination.Proofs.LinearMap.Sizes

/-!
# Lengths that the action refuses

Every map checks the vectors that it is given, and a product has its factors check the columns and rows that it cuts for
them. Those have the right lengths, so whatever passes the first check passes all the others, and all that may still be
refused is a buffer. Only a dense map without entries checks nothing, and it does so only where it stands alone, since a
product without entries never gets to its factors.
-/
namespace BlockElimination.LinearMap

variable {F : Type} [Arith F] {K : LinearMap F} {flip : Bool} {alpha beta : F} {x y : Array F}

/-- A dense map that has no rows or no columns. -/
def IsEmptyDense : LinearMap F → Prop
  | dense d => d.rows = 0 ∨ d.cols = 0
  | _ => False

theorem action_of_isEmptyDense (h : K.IsEmptyDense) (flip : Bool) (alpha : F) (x : Array F) (beta : F) (y : Array F) :
    K.checkedAction flip alpha x beta y = .ok (Kernel.scale beta y) := by
  cases K with
  | dense d =>
    have htakes : d.Takes flip x.size y.size := by
      rcases h with h | h <;> simp [Dense.Takes, h]
    have hempty : ¬(0 < d.rows ∧ 0 < d.cols) := by
      rcases h with h | h <;> simp [h]
    rw [checkedAction, Kernel.requireLengths_bind, if_pos htakes, Dense.action, if_neg hempty]
    rfl
  | kron a b => exact h.elim
  | diag d => exact h.elim
  | scalar n s => exact h.elim

/-- A map that has entries, or whose representation is not dense, refuses operands of wrong lengths at once. -/
theorem checkedAction_of_wrong (hfits : K.Fits) (hnot : ¬K.IsEmptyDense)
    (hwrong : ¬(x.size = K.inner flip ∧ y.size = K.outer flip)) :
    K.checkedAction flip alpha x beta y = .error .lengthMismatch := by
  cases K with
  | dense d =>
    have htakes : ¬d.Takes flip x.size y.size := by
      rintro (h | h | h)
      · exact hnot (.inl h)
      · exact hnot (.inr h)
      · exact hwrong h
    rw [checkedAction, Kernel.requireLengths_bind, if_neg htakes]
  | kron a b =>
    rw [inner_kron, outer_kron] at hwrong
    rw [checkedAction, size_bind, if_pos hfits, Kernel.requireLengths_bind]
    split
    · rw [Kernel.requireLengths_bind, if_neg fun hy => hwrong ⟨‹_›, hy⟩]
    · rfl
  | diag d =>
    have hd : ¬(d.value.size = x.size ∧ d.value.size = y.size) := fun h =>
      hwrong (by cases flip <;> exact ⟨h.1.symm, h.2.symm⟩)
    rw [checkedAction, Kernel.transformDiagonal, Kernel.requireLengths_bind, if_neg hd]
  | scalar n s =>
    rw [checkedAction, Kernel.requireLengths_bind]
    split
    case isTrue hx =>
      have hxy : x.size ≠ y.size := fun h => hwrong (by cases flip <;> exact ⟨hx, h.symm.trans hx⟩)
      split
      · rw [Kernel.copy, Kernel.requireLengths_bind, if_neg hxy]
        rfl
      · rw [Kernel.add, Kernel.requireLengths_bind, if_neg (by simpa using hxy)]
    case isFalse => rfl

/-- Which operands an action refuses, and for what. -/
theorem checkedAction_refuses_iff (hfits : K.Fits) :
    (K.checkedAction flip alpha x beta y = .error .lengthMismatch ↔
      ¬K.IsEmptyDense ∧ ¬(x.size = K.inner flip ∧ y.size = K.outer flip)) ∧
    ((∃ f, K.checkedAction flip alpha x beta y = .error f) ↔
      ¬K.IsEmptyDense ∧ ¬(x.size = K.inner flip ∧ y.size = K.outer flip) ∨ ¬K.Buffered flip) := by
  by_cases hempty : K.IsEmptyDense
  · have hbuffered : K.Buffered flip := by
      cases K with
      | kron a b => exact hempty.elim
      | _ => trivial
    simp [action_of_isEmptyDense hempty, hempty, hbuffered]
  · by_cases hsizes : x.size = K.inner flip ∧ y.size = K.outer flip
    · rw [checkedAction_eq (fun _ => hfits) hsizes.1 hsizes.2]
      split <;> simp_all
    · simp [checkedAction_of_wrong hfits hempty hsizes, hempty, hsizes]

/-- Which operands the actions refuse. A map takes vectors of its own sizes and no others, and no factor of a product
refuses what it is handed, so that beside wrong lengths only a buffer that is too large ends an action. A dense map
without rows or without columns is apart: it takes vectors of all lengths and multiplies `y` by `β`. -/
theorem actions_refuse_iff (hfits : K.Fits) (alpha : F) (x : Array F) (beta : F) (y : Array F) :
    ((K.actOn alpha x beta y = .error .lengthMismatch ↔
        ¬K.IsEmptyDense ∧ ¬(x.size = K.cols ∧ y.size = K.rows)) ∧
      ((∃ f, K.actOn alpha x beta y = .error f) ↔
        ¬K.IsEmptyDense ∧ ¬(x.size = K.cols ∧ y.size = K.rows) ∨ ¬K.Buffered false)) ∧
    ((K.transposeActOn alpha x beta y = .error .lengthMismatch ↔
        ¬K.IsEmptyDense ∧ ¬(x.size = K.rows ∧ y.size = K.cols)) ∧
      ((∃ f, K.transposeActOn alpha x beta y = .error f) ↔
        ¬K.IsEmptyDense ∧ ¬(x.size = K.rows ∧ y.size = K.cols) ∨ ¬K.Buffered true)) ∧
    (K.IsEmptyDense → K.actOn alpha x beta y = .ok (Kernel.scale beta y) ∧
      K.transposeActOn alpha x beta y = .ok (Kernel.scale beta y)) :=
  ⟨checkedAction_refuses_iff hfits, checkedAction_refuses_iff hfits, fun hempty =>
    ⟨action_of_isEmptyDense hempty false alpha x beta y, action_of_isEmptyDense hempty true alpha x beta y⟩⟩

/-- A product of a dense map of 2 rows and 1 column with a product that has no columns. -/
def hollow : LinearMap ℚ :=
  kron (dense (.ofEntries 2 1 fun i _ => i + 1)) (kron (dense (.zeros 2 0)) (ofScalar 3 2))

/-- An operand that is too long or too short is refused although there is nothing to read it for. -/
theorem hollow_refuses : hollow.Fits ∧ hollow.actOn 1 #[1] 2 (Kernel.zeros 12) = .error .lengthMismatch ∧
    hollow.transposeActOn 1 (Kernel.zeros 11) 2 #[] = .error .lengthMismatch ∧
    ¬∃ f, hollow.actOn 1 #[] 2 (Kernel.zeros 12) = .error f := by
  have hfits : hollow.Fits := by decide
  have hrefuse := actions_refuse_iff hfits 1 #[1] 2 (Kernel.zeros 12)
  have htranspose := actions_refuse_iff hfits 1 (Kernel.zeros 11) 2 #[]
  have htake := actions_refuse_iff hfits 1 #[] 2 (Kernel.zeros 12)
  refine ⟨hfits, hrefuse.1.1.mpr ⟨id, ?_⟩, htranspose.2.1.1.mpr ⟨id, ?_⟩, htake.1.2.not.mpr ?_⟩
  · exact fun h => absurd h.1 (by decide)
  · exact fun h => absurd h.1 (by decide)
  · rintro (⟨-, hwrong⟩ | hbuffer)
    · exact hwrong ⟨rfl, by decide⟩
    · exact hbuffer (by decide)

/-- A dense map that has no rows takes a vector of 1 element for its 2 columns, and one of 3 elements for its result. -/
theorem not_forall_refuses :
    ¬∀ (K : LinearMap Float) (alpha : Float) (x : Array Float) (beta : Float) (y : Array Float),
      K.Fits → K.Buffered false →
        ((∃ f, K.actOn alpha x beta y = .error f) ↔ ¬(x.size = K.cols ∧ y.size = K.rows)) := by
  intro h
  obtain ⟨f, hf⟩ := (h (dense (.zeros 0 2)) 1 #[1] 2 #[1, 2, 3] (by decide) trivial).mpr (by decide)
  have hscaled : (dense (.zeros 0 2)).actOn 1 #[1] 2 #[1, 2, 3] = .ok (Kernel.scale (2 : Float) #[1, 2, 3]) := rfl
  cases hscaled.symm.trans hf

end BlockElimination.LinearMap
