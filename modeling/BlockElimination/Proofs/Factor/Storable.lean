import BlockElimination.Proofs.BlockMatrix.Storable
import BlockElimination.Proofs.Factor.FillBounds
import BlockElimination.Proofs.Factor.Step
import BlockElimination.Proofs.LinearMap.Symmetric

/-!
# Factorizations without faults

Elimination makes no new names. So a matrix between names whose dimensions leave enough room is factored without any
size leaving its range, whatever its pattern and its numbers are: there is a factor, or an error that says why there is
none.
-/
namespace BlockElimination.Factor

open BlockMatrix

variable {F : Type} {A : BlockMatrix F} {S : Finset String} {dim : String → ℕ} {key : String}

theorem within_eraseKey (hA : A.Within S dim) (key : String) : (eraseKey A key).Within S dim := by
  intro i j K hK
  rw [get?_eraseKey_eq_ite] at hK
  split at hK
  · cases hK
  · exact hA i j K hK

/-- The rows off the diagonal of a column are among those of all names. -/
theorem sum_offDiagonalRows_le (hA : A.Within S dim) (key : String) : (offDiagonalRows A key).sum ≤ ∑ k ∈ S, dim k := by
  have hrows : offDiagonalRows A key = ((offDiagonalEntries A key).map Prod.fst).map dim := by
    rw [offDiagonalRows, List.map_map]
    exact List.map_congr_left fun p hp => (hA p.1 key p.2 (mem_offDiagonalEntries.mp hp).2).2.2.1
  rw [hrows, ← List.sum_toFinset dim (nodup_offDiagonalEntries A key)]
  refine Finset.sum_le_sum_of_subset fun k hk => ?_
  obtain ⟨p, hp, rfl⟩ := List.mem_map.mp (List.mem_toFinset.mp hk)
  exact (hA p.1 key p.2 (mem_offDiagonalEntries.mp hp).2).1

variable (hS : Room S dim)
include hS

theorem answers_fill (hA : A.Within S dim) (key : String) : (fill A key).Answers fun _ => True := by
  cases hd : A.get? key key with
  | none =>
    have hdiagonal : diagonal A key = Outcome.report (.noDiagonal key) >>= fun _ => .error (.missingDiagonal key) := by
      rw [diagonal, hd]
    rw [fill, hdiagonal]
    trivial
  | some d =>
    have hsum := sum_offDiagonalRows_le hA key
    have hfits : ∀ p ∈ offDiagonalEntries A key, p.2.Fits := fun p hp => by
      obtain ⟨hi, hj, hsize⟩ := hA p.1 key p.2 (mem_offDiagonalEntries.mp hp).2
      exact (hS.storable hi hj hsize).fits
    have hsquare : (offDiagonalRows A key).sum ^ 2 < Size.bound :=
      (Nat.pow_le_pow_left hsum 2).trans_lt (hS.square.trans_le Size.capacity_le_bound)
    rw [fill_eq_ok hd hfits hsquare]
    trivial

theorem answers_nextPivot (rule : PivotRule) (hA : A.Within S dim) : (nextPivot rule A).Answers fun _ => True := by
  cases rule with
  | minFill =>
    have hbest : (leastFill? A).Answers fun _ => True := Outcome.Ends.foldlM (fun _ _ => True) trivial fun _ key _ _ _ =>
      (answers_fill hS hA key).bind fun _ _ => Outcome.Ends.report_bind trivial
    refine hbest.bind fun best _ => ?_
    cases best <;> trivial
  | natural =>
    unfold nextPivot
    cases A.colKeys.head? <;> trivial

variable [Scalar F]

theorem answers_pivotInverse (hA : A.Within S dim) (tol : F) (key : String) :
    (pivotInverse tol A key).Answers fun P => key ∈ S ∧ P.Sized (dim key) (dim key) := by
  unfold pivotInverse diagonal
  cases hK : A.get? key key with
  | none => trivial
  | some K =>
    obtain ⟨hkey, -, hsize⟩ := hA key key K hK
    have hinverse := (hS.storable hkey hkey hsize).fits.ends_inverse tol
    refine Outcome.Ends.mapError (hinverse.mono (fun P hP => ?_) (fun _ h => h) fun _ h => h) fun _ _ => trivial
    exact ⟨hkey, hP.rows_eq.trans hsize.1, hP.cols_eq.trans hsize.2⟩

/-- All parts of the state are between names of the set. -/
structure State.Within (s : State F) (S : Finset String) (dim : String → ℕ) : Prop where
  rest : s.rest.Within S dim
  lower : s.lower.Within S dim
  diagInv : s.diagInv.Within S dim

theorem State.Within.answers_step {s : State F} (hs : s.Within S dim) (par : FactorParameters F) :
    (step par s).Answers (·.Within S dim) := by
  refine (answers_nextPivot hS par.rule hs.rest).bind fun ⟨key, f⟩ _ => Outcome.Ends.report_bind ?_
  refine (answers_pivotInverse hS hs.rest par.tolerance key).bind fun inv ⟨hkey, hinv⟩ => ?_
  refine Outcome.Ends.lift_bind_eq (LinearMap.colCount_of_fits (hS.storable hkey hkey hinv).fits) ?_
  obtain ⟨d, hd, hdW⟩ := (Within.empty S dim).exists_insertOrAdd_eq_ok hS hkey hkey hinv
  refine Outcome.Ends.lift_bind_eq hd ?_
  obtain ⟨v, hv, hvW⟩ : ∃ v, offDiagonal s.rest key = .ok v ∧ v.Within S dim := by
    refine (Within.empty S dim).exists_insertAll_eq_ok hS fun t ht => ?_
    obtain ⟨p, hp, rfl⟩ := List.mem_map.mp ht
    exact hs.rest p.1 key p.2 (mem_offDiagonalEntries.mp hp).2
  refine Outcome.Ends.lift_bind_eq hv ?_
  refine (hvW.ends_mul hS hdW).bind fun vd hvd => ?_
  obtain ⟨lower, hlower, hlowerW⟩ := hs.lower.exists_addScaled_eq_ok hS hvd 1
  refine Outcome.Ends.lift_bind_eq hlower ?_
  obtain ⟨diagInv, hdiag, hdiagW⟩ := hs.diagInv.exists_addScaled_eq_ok hS hdW 1
  refine Outcome.Ends.lift_bind_eq hdiag ?_
  obtain ⟨vt, hvt, hvtW⟩ := hvW.exists_transpose_eq_ok hS
  refine Outcome.Ends.lift_bind_eq hvt ?_
  refine (hvd.ends_mul hS hvtW).bind fun update hupdate => ?_
  obtain ⟨rest, hrest, hrestW⟩ := (within_eraseKey hs.rest key).exists_addScaled_eq_ok hS hupdate (-1)
  refine Outcome.Ends.lift_bind_eq hrest ?_
  exact Outcome.Ends.pure_iff.mpr ⟨hrestW, hlowerW, hdiagW⟩

theorem State.Within.answers_steps {s : State F} (hs : s.Within S dim) (par : FactorParameters F) (n : ℕ) :
    (steps par n s).Answers (·.Within S dim) := by
  induction n generalizing s with
  | zero => exact hs
  | succ n ih => exact (hs.answers_step hS par).bind fun _ h => ih h

/-- Factoring ends with a factor or an error. -/
theorem answers_compute (hA : A.Within S dim) (par : FactorParameters F) : (compute par A).Answers fun _ => True := by
  have hstart : (State.start A).Within S dim := ⟨hA, .empty S dim, .empty S dim⟩
  refine Outcome.Ends.report_bind ((hstart.answers_steps hS par _).bind fun s hs => ?_)
  obtain ⟨upper, hupper, -⟩ := hs.lower.exists_transpose_eq_ok hS
  exact Outcome.Ends.lift_bind_eq hupper (Outcome.Ends.report_bind trivial)

end BlockElimination.Factor
