import BlockElimination.Proofs.BlockMatrix.Pattern
import BlockElimination.Proofs.Factor.Step

/-!
# The pattern of one elimination

Which blocks and which columns are there after a name has been eliminated, in every arithmetic and for every matrix.
Where the pattern is not symmetric, a column may go with the row of the name; the update then brings it back at its
diagonal.
-/
namespace BlockElimination.Factor

open BlockMatrix

section Columns
variable {F : Type} {A : BlockMatrix F} {key k : String}

theorem contains_eraseKey_iff {i j : String} :
    (eraseKey A key).contains i j ↔ A.contains i j ∧ j ≠ key ∧ ¬(i = key ∧ A.contains j key) := by
  rw [contains, get?_eraseKey_eq_ite]
  split
  case isTrue h => exact iff_of_false Bool.false_ne_true fun hc => h.elim hc.2.1 hc.2.2
  case isFalse h =>
    obtain ⟨hj, hi⟩ := not_or.mp h
    exact ⟨fun hc => ⟨hc, hj, hi⟩, fun hc => hc.1⟩

theorem mem_colKeys_of_erasePair {row : String} (h : k ∈ (erasePair key A row).colKeys) : k ∈ A.colKeys := by
  unfold erasePair at h
  split at h
  · exact (mem_colKeys_erase.mp h).1
  · exact (mem_colKeys_erase.mp (mem_colKeys_erase.mp h).1).1

theorem mem_colKeys_erasePair {row : String} (hk : k ≠ key) (hrow : k ≠ row) :
    k ∈ (erasePair key A row).colKeys ↔ k ∈ A.colKeys := by
  refine ⟨mem_colKeys_of_erasePair, fun h => ?_⟩
  have herase : k ∈ (A.erase row key).colKeys := mem_colKeys_erase.mpr ⟨h, fun e => absurd e hk⟩
  unfold erasePair
  split
  · exact herase
  · exact mem_colKeys_erase.mpr ⟨herase, fun e => absurd e hrow⟩

theorem exists_contains_erasePair {row : String} (h : k ∈ A.colKeys → ∃ i, A.contains i k)
    (hk : k ∈ (erasePair key A row).colKeys) : ∃ i, (erasePair key A row).contains i k := by
  unfold erasePair at hk ⊢
  split at hk
  case isTrue heq =>
    rw [if_pos heq]
    exact exists_contains_erase h hk
  case isFalse hne =>
    rw [if_neg hne]
    exact exists_contains_erase (exists_contains_erase h) hk

theorem mem_colKeys_of_eraseKey (h : k ∈ (eraseKey A key).colKeys) : k ∈ A.colKeys := by
  obtain ⟨rows, hrows, -⟩ := exists_eraseKey_eq_foldl A key
  rw [hrows] at h
  clear hrows
  induction rows generalizing A with
  | nil => exact h
  | cons row rows ih => exact mem_colKeys_of_erasePair (ih h)

theorem mem_colKeys_eraseKey (hk : k ≠ key) (hrow : ¬A.contains k key) (h : k ∈ A.colKeys) :
    k ∈ (eraseKey A key).colKeys := by
  obtain ⟨rows, hrows, hmem⟩ := exists_eraseKey_eq_foldl A key
  have hnot : k ∉ rows := fun hc => hrow ((hmem k).mp hc)
  rw [hrows]
  clear hrows hmem hrow
  induction rows generalizing A with
  | nil => exact h
  | cons row rows ih =>
    obtain ⟨hne, hnot⟩ := not_or.mp (mt List.mem_cons.mpr hnot)
    exact ih ((mem_colKeys_erasePair hk hne).mpr h) hnot

/-- The column of the name itself is gone. -/
theorem not_mem_colKeys_eraseKey (h : ∃ i, A.contains i key) : key ∉ (eraseKey A key).colKeys := by
  have hleft : key ∈ (eraseKey A key).colKeys → ∃ i, (eraseKey A key).contains i key := by
    obtain ⟨rows, hrows, -⟩ := exists_eraseKey_eq_foldl A key
    rw [hrows]
    have hoccupied : key ∈ A.colKeys → ∃ i, A.contains i key := fun _ => h
    clear hrows h
    induction rows generalizing A with
    | nil => exact hoccupied
    | cons row rows ih => exact ih (exists_contains_erasePair hoccupied)
  intro hkey
  obtain ⟨i, hi⟩ := hleft hkey
  exact (contains_eraseKey_iff.mp hi).2.1 rfl

end Columns

section Step
variable {F : Type} {key : String}

/-- Where blocks are after `key` has been eliminated from `s`. -/
structure Reshapes (s : State F) (key : String) (s' : State F) : Prop where
  diagonal : s.rest.contains key key
  order_eq : s'.order = s.order ++ [key]
  lower_contains : ∀ i j, s'.lower.contains i j ↔ s.lower.contains i j ∨ i ≠ key ∧ j = key ∧ s.rest.contains i key
  rest_contains : ∀ i j, s'.rest.contains i j ↔
    s.rest.contains i j ∧ j ≠ key ∧ ¬(i = key ∧ s.rest.contains j key) ∨
      (i ≠ key ∧ s.rest.contains i key) ∧ j ≠ key ∧ s.rest.contains j key
  mem_rest : ∀ k, k ∈ s'.rest.colKeys ↔ k ≠ key ∧ (k ∈ s.rest.colKeys ∨ s.rest.contains k key)

theorem ensures_offDiagonal [Arith F] (A : BlockMatrix F) (key : String) :
    Ensures (offDiagonal A key) fun V => ∀ i j, V.contains i j ↔ i ≠ key ∧ j = key ∧ A.contains i key := by
  refine (ensures_insertAll empty _).mono fun V hV i j => ?_
  rw [hV.contains_iff, or_iff_right (contains_empty i j)]
  simp only [List.map_map, List.mem_map, Function.comp_apply, Prod.mk.injEq, Prod.exists, mem_offDiagonalEntries,
    contains_iff]
  constructor
  · rintro ⟨r, K, ⟨hr, hK⟩, rfl, rfl⟩
    exact ⟨hr, rfl, K, hK⟩
  · rintro ⟨hi, rfl, K, hK⟩
    exact ⟨i, K, ⟨hi, hK⟩, rfl, rfl⟩

variable {s : State F} {D V VD VT U lower rest : BlockMatrix F}

theorem Reshapes.of_parts (hkey : s.rest.contains key key) (hD : ∀ i j, D.contains i j ↔ i = key ∧ j = key)
    (hV : ∀ i j, V.contains i j ↔ i ≠ key ∧ j = key ∧ s.rest.contains i key)
    (hVD : ∀ i j, VD.contains i j ↔ ∃ k, V.contains i k ∧ D.contains k j)
    (hVT : ∀ i j, VT.contains j i ↔ V.contains i j)
    (hU : ∀ i j, U.contains i j ↔ ∃ k, VD.contains i k ∧ VT.contains k j)
    (hlower : Extends s.lower (VD.blocks.map fun t => (t.1, t.2.1)) lower)
    (hrest : Extends (eraseKey s.rest key) (U.blocks.map fun t => (t.1, t.2.1)) rest) (diagInv : BlockMatrix F)
    (dims : List ℕ) : Reshapes s key ⟨rest, lower, diagInv, s.order ++ [key], dims⟩ := by
  have hcolumn : ∀ i j, VD.contains i j ↔ i ≠ key ∧ j = key ∧ s.rest.contains i key := by
    intro i j
    simp only [hVD, hV, hD]
    constructor
    · rintro ⟨k, ⟨hi, -, hc⟩, -, hj⟩
      exact ⟨hi, hj, hc⟩
    · rintro ⟨hi, hj, hc⟩
      exact ⟨key, ⟨hi, rfl, hc⟩, rfl, hj⟩
  have hupdate : ∀ i j, U.contains i j ↔ (i ≠ key ∧ s.rest.contains i key) ∧ j ≠ key ∧ s.rest.contains j key := by
    intro i j
    simp only [hU, hcolumn, hVT, hV]
    constructor
    · rintro ⟨k, ⟨hi, -, hic⟩, hj, -, hjc⟩
      exact ⟨⟨hi, hic⟩, hj, hjc⟩
    · rintro ⟨⟨hi, hic⟩, hj, hjc⟩
      exact ⟨key, ⟨hi, rfl, hic⟩, hj, rfl, hjc⟩
  constructor
  · exact hkey
  · rfl
  · intro i j
    rw [hlower.contains_iff, mem_places, hcolumn]
  · intro i j
    rw [hrest.contains_iff, mem_places, contains_eraseKey_iff, hupdate]
  · intro k
    simp only [hrest.mem_colKeys, mem_places, hupdate]
    constructor
    · rintro (hk | ⟨i, -, hk, hc⟩)
      · exact ⟨fun e => not_mem_colKeys_eraseKey ⟨key, hkey⟩ (e ▸ hk), .inl (mem_colKeys_of_eraseKey hk)⟩
      · exact ⟨hk, .inr hc⟩
    · rintro ⟨hne, hk⟩
      -- A column that is lost with the row of the name is brought back at its diagonal.
      by_cases hc : s.rest.contains k key
      · exact .inr ⟨k, ⟨hne, hc⟩, hne, hc⟩
      · exact .inl (mem_colKeys_eraseKey hne hc (hk.resolve_right hc))

/-- The errors of one elimination: a choice that is not there, or a pivot that is not inverted. -/
def Fails (A : BlockMatrix F) : BlockError → Prop
  | .pivot key _ => key ∈ A.colKeys
  | e => Lacks A e

theorem Lacks.fails {A : BlockMatrix F} {e : BlockError} (h : Lacks A e) : Fails A e := by
  cases e with
  | pivot key cause => exact h.elim
  | _ => exact h

variable [Scalar F]

theorem ends_pivotInverse (tol : F) (A : BlockMatrix F) {key : String} (hkey : key ∈ A.colKeys) :
    (pivotInverse tol A key).Ends (fun _ => A.contains key key) (Fails A) fun _ => True := by
  refine ((yields_diagonal A key).ends.mono (fun _ h => h) ?_ fun _ h => h).bind fun a ha => ?_
  · rintro _ ⟨rfl, hnot⟩
    exact ⟨hkey, hnot⟩
  · have hinverse : (a.inverse tol).Ends (fun _ => A.contains key key) (fun _ => True) fun _ => True :=
      Outcome.Ends.of_forall (fun _ => contains_iff.mpr ⟨a, ha⟩) (fun _ => trivial) fun _ => trivial
    exact hinverse.mapError fun _ _ => hkey

/-- One elimination reshapes the state by the chosen name, which has a diagonal block, or fails. -/
theorem ends_step_pivot (par : FactorParameters F) (s : State F) :
    (step par s).Ends (fun s' => ∃ key fill, (nextPivot par.rule s.rest).result = .ok (key, fill) ∧ Reshapes s key s')
      (Fails s.rest) fun _ => True := by
  refine (((yields_nextPivot par.rule s.rest).ends.and fun _ hp => hp).mono (fun _ h => h) (fun _ h => h.fails)
    fun _ h => h).bind fun ⟨key, fill⟩ ⟨hpivot, hkey⟩ => ?_
  refine Outcome.Ends.report_bind ((ends_pivotInverse par.tolerance s.rest hkey).bind fun inv hdiagonal => ?_)
  refine Outcome.Ends.lift_bind_any fun dim => ?_
  refine Outcome.Ends.lift_bind ((Extends.nil empty).ensures_insertOrAdd key key inv) fun D hD => ?_
  refine Outcome.Ends.lift_bind (ensures_offDiagonal s.rest key) fun V hV => ?_
  refine (ends_mul V D).bind fun VD hVD => ?_
  refine Outcome.Ends.lift_bind (ensures_addScaled 1 s.lower VD) fun lower hlower => ?_
  refine Outcome.Ends.lift_bind_any fun diagInv => ?_
  refine Outcome.Ends.lift_bind (ensures_transpose V) fun VT hVT => ?_
  refine (ends_mul VD VT).bind fun U hU => ?_
  refine Outcome.Ends.lift_bind (ensures_addScaled (-1) (eraseKey s.rest key) U) fun rest hrest => ?_
  have hsingle : ∀ i j, D.contains i j ↔ i = key ∧ j = key := fun i j => by
    rw [hD.contains_iff, or_iff_right (contains_empty i j), List.nil_append, List.mem_singleton, Prod.mk.injEq]
  exact Outcome.Ends.pure_iff.mpr
    ⟨key, fill, hpivot, Reshapes.of_parts hdiagonal hsingle hV hVD hVT hU hlower hrest diagInv _⟩

theorem ends_step (par : FactorParameters F) (s : State F) :
    (step par s).Ends (fun s' => ∃ key, Reshapes s key s') (Fails s.rest) fun _ => True :=
  (ends_step_pivot par s).mono (fun _ ⟨key, _, _, h⟩ => ⟨key, h⟩) (fun _ h => h) fun _ h => h

/-- What every elimination preserves is preserved by a run. -/
theorem ends_steps_of_reshapes {inv : State F → Prop} (step : ∀ s key s', inv s → Reshapes s key s' → inv s')
    (par : FactorParameters F) (n : ℕ) {s : State F} (start : inv s) :
    (steps par n s).Ends inv (fun _ => True) fun _ => True := by
  induction n generalizing s with
  | zero => exact start
  | succ n ih =>
    refine ((ends_step par s).mono (fun _ h => h) (fun _ _ => trivial) fun _ h => h).bind ?_
    rintro s' ⟨key, h⟩
    exact ih (step s key s' start h)

/-- The state that a factor is read from. -/
theorem exists_final_state {inv : State F → Prop} (step : ∀ s key s', inv s → Reshapes s key s' → inv s')
    {A : BlockMatrix F} (start : inv (.start A)) {par : FactorParameters F} {f : Factor F}
    (h : (compute par A).result = .ok f) : ∃ s, inv s ∧ s.order = f.order ∧ s.lower = f.lower := by
  have hends : (compute par A).Ends (fun f => ∃ s, inv s ∧ s.order = f.order ∧ s.lower = f.lower)
      (fun _ => True) fun _ => True := by
    refine Outcome.Ends.report_bind ((ends_steps_of_reshapes step par _ start).bind fun s hs => ?_)
    refine Outcome.Ends.lift_bind_any fun upper => ?_
    exact Outcome.Ends.report_bind (Outcome.Ends.pure_iff.mpr ⟨s, hs, rfl, rfl⟩)
  exact hends.of_result_eq_ok h

end Step

end BlockElimination.Factor
