import BlockElimination.BlockMatrix.Inverse
import BlockElimination.Factor.Elimination
import BlockElimination.Proofs.Exact
import BlockElimination.Proofs.LinearMap.Announced

/-!
# How failing inversions and factorizations are announced

Errors arise where a diagonal block is looked for, where a pivot is chosen and where a block is inverted. Each of these
places keeps to what is asked of an announced computation, and so does everything that is made of them: a run of
elimination steps of any length, and the inverse of a matrix of any number of blocks.
-/
namespace BlockElimination

variable {F : Type}

namespace BlockMatrix

theorem announced_mul [Arith F] {ε : Type} (A B : BlockMatrix F) : (A.mul B : Outcome ε (BlockMatrix F)).Announced := by
  refine Outcome.Announced.foldlM ?_
  rintro ⟨⟨i, k, j⟩, a, b⟩ - C
  refine (Outcome.Announced.reportIfTold ?_).bind fun _ => ?_
  · refine Ensures.bind_any fun s => Ensures.bind_any fun t => ?_
    exact Ensures.pure_iff.mpr (by simp [Event.level])
  · exact (Outcome.Announced.ofExcept _).bind fun product => Outcome.Announced.ofExcept _

/-- A block without an inverse has reported itself when the inverse of the matrix is given up. -/
theorem announced_inverse [Scalar F] (eps : F) (A : BlockMatrix F) : (A.inverse eps).Announced := by
  refine (Outcome.Announced.ofExcept _).bind fun m => ?_
  refine (Outcome.Announced.ofExcept _).bind fun n => ?_
  split
  · exact Outcome.Announced.failure rfl _
  · split
    · refine Outcome.Announced.foldlM ?_
      rintro ⟨row, col, a⟩ - C
      refine ((LinearMap.announced_inverse eps a).mapError_silent _).bind fun inv => ?_
      exact Outcome.Announced.ofExcept _
    · exact Outcome.Announced.failure rfl _

end BlockMatrix

namespace Factor

theorem announced_diagonal (A : BlockMatrix F) (key : String) : (diagonal A key).Announced := by
  unfold diagonal
  cases A.get? key key with
  | some a => exact Outcome.Announced.ok a
  | none => exact Outcome.Announced.failure rfl _

theorem announced_fill (A : BlockMatrix F) (key : String) : (fill A key).Announced := by
  refine (announced_diagonal A key).bind fun a => ?_
  refine (Outcome.Announced.mapM fun p _ => ?_).bind fun column => Outcome.Announced.ofExcept _
  exact (Outcome.Announced.ofExcept p.2.rowCount).map _

theorem announced_leastFill (A : BlockMatrix F) : (leastFill? A).Announced := by
  refine Outcome.Announced.foldlM fun key _ best => (announced_fill A key).bind fun f => ?_
  exact (Outcome.Announced.report (by simp [Event.level])).bind fun _ => Outcome.Announced.ok _

theorem announced_nextPivot (rule : PivotRule) (A : BlockMatrix F) : (nextPivot rule A).Announced := by
  cases rule with
  | minFill =>
    refine (announced_leastFill A).bind fun best => ?_
    cases best with
    | some pivot => exact Outcome.Announced.ok pivot
    | none => exact Outcome.Announced.failure rfl _
  | natural =>
    refine (Outcome.Announced.ok (A.colKeys.head?.map fun key => (key, 0))).bind fun best => ?_
    cases best with
    | some pivot => exact Outcome.Announced.ok pivot
    | none => exact Outcome.Announced.failure rfl _

variable [Scalar F]

/-- A pivot that is not found is reported where it is looked for, and one that is not inverted is reported once more. -/
theorem announced_pivotInverse (tolerance : F) (A : BlockMatrix F) (key : String) :
    (pivotInverse tolerance A key).Announced := by
  refine (announced_diagonal A key).bind fun a => ?_
  exact Outcome.Announced.mapError_report (LinearMap.announced_inverse tolerance a).quiet (fun _ => rfl) _

theorem announced_step (par : FactorParameters F) (s : State F) : (step par s).Announced := by
  refine (announced_nextPivot par.rule s.rest).bind ?_
  rintro ⟨key, fill⟩
  refine (Outcome.Announced.report (by simp [Event.level])).bind fun _ => ?_
  refine (announced_pivotInverse par.tolerance s.rest key).bind fun inv => ?_
  refine (Outcome.Announced.ofExcept _).bind fun dim => ?_
  refine (Outcome.Announced.ofExcept _).bind fun d => ?_
  refine (Outcome.Announced.ofExcept _).bind fun v => ?_
  refine (BlockMatrix.announced_mul v d).bind fun vd => ?_
  refine (Outcome.Announced.ofExcept _).bind fun lower => ?_
  refine (Outcome.Announced.ofExcept _).bind fun diagInv => ?_
  refine (Outcome.Announced.ofExcept _).bind fun vt => ?_
  refine (BlockMatrix.announced_mul vd vt).bind fun update => ?_
  exact (Outcome.Announced.ofExcept _).bind fun rest => Outcome.Announced.ok _

theorem announced_steps (par : FactorParameters F) (n : ℕ) (s : State F) : (steps par n s).Announced := by
  induction n generalizing s with
  | zero => exact Outcome.Announced.ok s
  | succ n ih => exact (announced_step par s).bind ih

theorem announced_compute (par : FactorParameters F) (A : BlockMatrix F) : (compute par A).Announced := by
  refine (Outcome.Announced.reportIfTold ?_).bind fun _ => ?_
  · refine Ensures.bind_any fun m => Ensures.bind_any fun n => ?_
    exact Ensures.pure_iff.mpr (by simp [Event.level])
  · refine (announced_steps par _ _).bind fun s => ?_
    refine (Outcome.Announced.ofExcept _).bind fun upper => ?_
    exact (Outcome.Announced.report (by simp [Event.level])).bind fun _ => Outcome.Announced.ok _

end Factor

/-- Every failure is announced, and nothing else is. A map whose inversion fails reports one error more than the depth
of the first part of it that is not square or is found singular by itself. -/
theorem failures_announced [Scalar F] (eps : F) (K : LinearMap F) (A : BlockMatrix F) (par : FactorParameters F) :
    (K.inverse eps).TellsErrors ∧ (A.inverse eps).TellsErrors ∧ (Factor.compute par A).TellsErrors ∧
      ((K.inverse eps).Faultless → (K.inverse eps).Counts ((K.failureDepth eps).map (· + 1))) :=
  ⟨(LinearMap.announced_inverse eps K).tellsErrors, (BlockMatrix.announced_inverse eps A).tellsErrors,
    (Factor.announced_compute par A).tellsErrors,
    fun hfault => LinearMap.counts_inverse eps (LinearMap.fits_of_faultless hfault)⟩

/-- A zero on the diagonal of the third map in depth. -/
def buried : LinearMap ℚ := .kron (.ofScalar 2 1) (.kron (.ofEntries 1 1 fun _ _ => 3) (.ofDiagonal #[1, 0]))

/-- Two names whose rows are the same. -/
def repeated : BlockMatrix ℚ :=
  let row (A : BlockMatrix ℚ) (name : String) := (A.set name "a" (.ofScalar 1 1)).set name "b" (.ofScalar 1 1)
  row (row .empty "a") "b"

theorem buried_announced :
    ((∃ x, (buried.inverse 0).observed.2 = .error (.error x)) ∧ (buried.inverse 0).errorCount = 3) ∧
      (∃ e, (repeated.inverse 0).observed.1.getLast? = some e ∧ e.level = .error) ∧
      ∃ e, (Factor.compute ⟨0, .minFill⟩ repeated).observed.1.getLast? = some e ∧ e.level = .error := by
  obtain ⟨-, hmatrix, hfactor, hcounts⟩ := failures_announced 0 buried repeated ⟨0, .minFill⟩
  have hdepth : buried.failureDepth 0 = some 2 := by decide +kernel
  have hburied := hcounts (by decide +kernel)
  rw [hdepth] at hburied
  obtain ⟨hmatrix, hmatrixLast⟩ := hmatrix (by decide +kernel)
  obtain ⟨hfactor, hfactorLast⟩ := hfactor (by decide +kernel)
  obtain ⟨x, hx⟩ := hmatrix.mp (by decide +kernel)
  obtain ⟨y, hy⟩ := hfactor.mp (by decide +kernel)
  exact ⟨hburied, hmatrixLast x hx, hfactorLast y hy⟩

end BlockElimination
