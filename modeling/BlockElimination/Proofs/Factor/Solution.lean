import BlockElimination.Proofs.Factor.Solve
import BlockElimination.Proofs.Renaming

/-!
# The solution

Any two factorizations lead to the same solution, since there is only one. The solution of a renamed system is the
renamed solution, though a renaming changes the order of the names and with it the order of elimination.
-/
namespace BlockElimination.Factor

open BlockMatrix

variable {F : Type} [Field F] [LinearOrder F] {A : BlockMatrix F} {dim : String → ℕ} {b x : BlockVector F}
  {ρ : String → String}

omit [Field F] [LinearOrder F] in
theorem Fitting.rename (hρ : ρ.Injective) (hb : Fitting A.colKeys (dim ∘ ρ) b) :
    Fitting (A.rename ρ).colKeys dim (b.rename ρ) := by
  intro k hk s hs
  obtain ⟨j, hj, rfl⟩ := (mem_colKeys_rename hρ).mp hk
  rw [BlockVector.get?_rename hρ] at hs
  exact hb j hj s hs

theorem Solves.rename (hρ : ρ.Injective) (hx : Solves A (dim ∘ ρ) b x) :
    Solves (A.rename ρ) dim (b.rename ρ) (x.rename ρ) := by
  refine ⟨Keyed.keys_eq_keys fun k => ?_, hx.conforms.rename hρ, fun k hk => ?_⟩
  · have hcontains : ∀ j, x.contains j ↔ j ∈ A.colKeys := fun j => by rw [← BlockVector.mem_keys, hx.keys_eq]
    refine (BlockVector.contains_rename hρ).trans (Iff.trans ?_ ((mem_colKeys_rename hρ).symm.trans Keyed.mem_keys))
    simp only [hcontains]
    tauto
  · obtain ⟨i, hi, rfl⟩ := (mem_colKeys_rename hρ).mp hk
    rw [names_rename hρ, Finset.sum_image hρ.injOn, BlockVector.part_rename hρ]
    refine (Finset.sum_congr rfl fun j _ => ?_).trans (hx.part_eq i hi)
    rw [block_rename hρ, BlockVector.part_rename hρ]

variable [IsStrictOrderedRing F] {par : FactorParameters F} {f : Factor F}

/-- Solving yields what another factorization has yielded, of the matrix itself or under other names. -/
theorem Solves.yields_solve_rename (hA : A.BlockSymmetric dim) (hb : Fitting A.colKeys dim b) (hx : Solves A dim b x)
    (hρ : ρ.Injective) (htol : 0 ≤ par.tolerance) (h : (compute par (A.rename ρ)).result = .ok f) :
    BlockElimination.Yields (f.solve (b.rename ρ)) (· = x.rename ρ) := by
  obtain ⟨dim, rfl⟩ : ∃ dim', dim = dim' ∘ ρ := ⟨ρ.extend dim 0, (Function.extend_comp hρ dim 0).symm⟩
  have hf := (yields_compute htol (hA.rename hρ)).of_result_eq_ok h
  exact (hf.yields_solve (hb.rename hρ)).mono fun y hy => hf.solves_unique hy (hx.rename hρ)

/-- Where a matrix is factored, solving yields a vector on its names that it multiplies to the right-hand side, and
there is no other such vector. Other parameters and other names lead to the same solution wherever they lead to one. -/
theorem solve_unique_solution (htol : 0 ≤ par.tolerance) (hA : A.BlockSymmetric dim)
    (h : (compute par A).result = .ok f) (hb : Fitting A.colKeys dim b) :
    BlockElimination.Yields (f.solve b) fun x => x.keys = A.colKeys ∧
      (A.apply x : Outcome BlockError (BlockVector F)).Yields (Matches A.colKeys dim b) (fun _ => False) ∧
      (∀ x' y, x'.keys = A.colKeys → (A.apply x' : Outcome BlockError (BlockVector F)).result = .ok y →
        Matches A.colKeys dim b y → x' = x) ∧
      (∀ par' f', 0 ≤ par'.tolerance → (compute par' A).result = .ok f' →
        BlockElimination.Yields (f'.solve b) (· = x)) ∧
      ∀ ρ : String → String, ρ.Injective → ∀ par' f', 0 ≤ par'.tolerance →
        (compute par' (A.rename ρ)).result = .ok f' →
        BlockElimination.Yields (f'.solve (b.rename ρ)) (· = x.rename ρ) := by
  have hf : Factors A dim f := (yields_compute htol hA).of_result_eq_ok h
  refine (hf.yields_solve hb).mono fun x hx => ⟨hx.keys_eq, hx.yields_apply hA hb, ?_, ?_, ?_⟩
  · intro x' y hkeys hy hmatches
    exact hf.solves_unique (solves_of_apply hA hb hkeys hy hmatches) hx
  · intro par' f' htol' h'
    have hf' : Factors A dim f' := (yields_compute htol' hA).of_result_eq_ok h'
    exact (hf'.yields_solve hb).mono fun y hy => hf'.solves_unique hy hx
  · intro ρ hρ par' f' htol' h'
    exact hx.yields_solve_rename hA hb hρ htol' h'

/-- One segment is missing, and one is at a name that is ignored. -/
def arrowRight : BlockVector ℚ := ⟨((∅ : Keyed (Array ℚ)).insert "b" #[3]).insert "z" #[7, 7]⟩

theorem fitting_arrowRight : Fitting arrow.colKeys arrowDim arrowRight := by
  unfold Fitting
  decide +kernel

theorem arrow_solution : ∃ f f' x y, (compute ⟨0, .minFill⟩ arrow).result = .ok f ∧
    (compute ⟨0, .natural⟩ arrow).result = .ok f' ∧ f.solve arrowRight = .ok x ∧ f'.solve arrowRight = .ok x ∧
    x.keys = arrow.colKeys ∧ (arrow.apply x : Outcome BlockError (BlockVector ℚ)).result = .ok y ∧
    Matches arrow.colKeys arrowDim arrowRight y := by
  obtain ⟨f, hf⟩ := exists_eq_ok (show (compute ⟨0, .minFill⟩ arrow).result.toBool = true by decide +kernel)
  obtain ⟨f', hf'⟩ := exists_eq_ok (show (compute ⟨0, .natural⟩ arrow).result.toBool = true by decide +kernel)
  have hsolve : ∀ g ∈ (compute ⟨0, .minFill⟩ arrow).result.toOption, (g.solve arrowRight).toBool = true ∧
      ∀ x ∈ (g.solve arrowRight).toOption,
        (arrow.apply x : Outcome BlockError (BlockVector ℚ)).result.toBool = true := by decide +kernel
  have hsolve' : ∀ g ∈ (compute ⟨0, .natural⟩ arrow).result.toOption, (g.solve arrowRight).toBool = true := by
    decide +kernel
  obtain ⟨hsolved, happlied⟩ := hsolve f (by rw [hf]; rfl)
  obtain ⟨x, hx⟩ := exists_eq_ok hsolved
  obtain ⟨y, hy⟩ := exists_eq_ok (happlied x (by rw [hx]; rfl))
  obtain ⟨x', hx'⟩ := exists_eq_ok (hsolve' f' (by rw [hf']; rfl))
  obtain ⟨hkeys, happly, -, hpar, -⟩ :=
    (solve_unique_solution le_rfl arrow_symmetric hf fitting_arrowRight).of_eq_ok hx
  obtain rfl : x' = x := (hpar _ f' le_rfl hf').of_eq_ok hx'
  exact ⟨f, f', x', y, hf, hf', hx, hx', hkeys, hy, happly.of_result_eq_ok hy⟩

end BlockElimination.Factor
