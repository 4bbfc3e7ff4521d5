import BlockElimination.Proofs.Factor.Pattern

/-!
# The end of a run

A step loses one column at most and no diagonal block of a column that is left, whatever the pattern is. There is thus
always a column to choose, and a diagonal block is only found missing under the rule of least fill if the matrix itself
lacks one, which is seen before anything is eliminated.
-/
namespace BlockElimination.Factor

open BlockMatrix

section Columns
variable {F : Type} {A : BlockMatrix F} {s s' : State F} {key k : String}

/-- Every column has a block at its own name. -/
def FullDiagonal (A : BlockMatrix F) : Prop := ∀ k ∈ A.colKeys, A.contains k k

theorem Reshapes.length_rest (h : Reshapes s key s') : s.rest.colKeys.length ≤ s'.rest.colKeys.length + 1 := by
  have hsub : s.rest.names ⊆ insert key s'.rest.names := by
    intro k hk
    rw [Finset.mem_insert, mem_names, h.mem_rest]
    by_cases hkey : k = key
    · exact .inl hkey
    · exact .inr ⟨hkey, .inl (mem_names.mp hk)⟩
  rw [← card_names, ← card_names]
  exact (Finset.card_le_card hsub).trans (Finset.card_insert_le key s'.rest.names)

theorem Reshapes.fullDiagonal (h : Reshapes s key s') (hs : FullDiagonal s.rest) : FullDiagonal s'.rest := by
  intro k hk
  obtain ⟨hne, hk⟩ := (h.mem_rest k).mp hk
  rw [h.rest_contains]
  by_cases hc : s.rest.contains k key
  · exact .inr ⟨⟨hne, hc⟩, hne, hc⟩
  · exact .inl ⟨hs k (hk.resolve_right hc), hne, fun e => hne e.1⟩

/-- `k` is the first column without a block at its own name. -/
def FirstBare (A : BlockMatrix F) (k : String) : Prop :=
  k ∈ A.colKeys ∧ ¬A.contains k k ∧ ∀ j ∈ A.colKeys, j < k → A.contains j j

theorem pairwise_colKeys (A : BlockMatrix F) : A.colKeys.Pairwise (· < ·) := List.pairwise_map.mpr A.columns.sorted

/-- The columns before the first bare one, in the order in which they are visited. -/
theorem firstBare_iff : FirstBare A k ↔
    ∃ before after, A.colKeys = before ++ k :: after ∧ ¬A.contains k k ∧ ∀ j ∈ before, A.contains j j := by
  constructor
  · rintro ⟨hk, hnot, hleast⟩
    obtain ⟨before, after, heq⟩ := List.append_of_mem hk
    refine ⟨before, after, heq, hnot, fun j hj => ?_⟩
    obtain ⟨hmem, hlt⟩ := (mem_before_iff (heq ▸ pairwise_colKeys A)).mp hj
    exact hleast j (heq ▸ hmem) hlt
  · rintro ⟨before, after, heq, hnot, hbefore⟩
    refine ⟨heq ▸ List.mem_append_right _ List.mem_cons_self, hnot, fun j hj hlt => hbefore j ?_⟩
    exact (mem_before_iff (heq ▸ pairwise_colKeys A)).mpr ⟨heq ▸ hj, hlt⟩

theorem exists_firstBare (h : ¬FullDiagonal A) : ∃ k, FirstBare A k := by
  cases hfind : A.colKeys.find? fun k => !A.contains k k with
  | some k =>
    obtain ⟨hk, before, after, heq, hbefore⟩ := List.find?_eq_some_iff_append.mp hfind
    refine ⟨k, firstBare_iff.mpr ⟨before, after, heq, by simpa using hk, fun j hj => by simpa using hbefore j hj⟩⟩
  | none =>
    refine absurd (fun k hk => ?_) h
    simpa using List.find?_eq_none.mp hfind k hk

theorem yields_leastFill_of_firstBare (h : FirstBare A k) :
    (leastFill? A).Yields (fun _ => False) (· = .missingDiagonal k) := by
  obtain ⟨before, after, heq, hnot, hbefore⟩ := firstBare_iff.mp h
  rw [leastFill?, heq, List.foldlM_append]
  refine Outcome.Yields.bind (p := fun _ => True) ?_ fun best _ => ?_
  · refine Outcome.Yields.foldlM (fun _ _ => True) trivial fun done j hj best _ => ?_
    refine ((yields_fill A j).mono (fun _ h => h) fun _ h => absurd (hbefore j hj) h.2).bind fun f _ => ?_
    exact Outcome.Yields.report_bind (Outcome.Yields.pure_iff.mpr trivial)
  · rw [List.foldlM_cons]
    refine Outcome.Yields.bind (p := fun _ => False) ?_ fun _ h => h.elim
    exact ((yields_fill A k).mono (fun _ h => h) fun _ h => h.1).bind fun f hc => absurd hc hnot

/-- No elimination is told. -/
def Choosing (e : Event) : Prop := ∀ key fill, e ≠ .eliminating key fill

theorem tells_fill (A : BlockMatrix F) (key : String) : (fill A key).Tells Choosing := by
  have hdiagonal : (diagonal A key).Tells Choosing := by
    unfold diagonal
    cases A.get? key key with
    | some a => exact Outcome.Tells.ok a
    | none => exact (Outcome.Tells.report fun _ _ => nofun).bind fun _ => Outcome.Tells.error _
  refine hdiagonal.bind fun a => ?_
  refine (Outcome.Tells.mapM fun p _ => ?_).bind fun column => Outcome.Tells.ofExcept _
  exact (Outcome.Tells.ofExcept p.2.rowCount).bind fun m => Outcome.Tells.ok _

theorem tells_leastFill (A : BlockMatrix F) : (leastFill? A).Tells Choosing := by
  refine Outcome.Tells.foldlM fun key _ best => (tells_fill A key).bind fun f => ?_
  exact (Outcome.Tells.report fun _ _ => nofun).bind fun _ => Outcome.Tells.ok _

end Columns

section Run
variable {F : Type} [Scalar F] {A : BlockMatrix F} {k : String}

/-- As many steps as there are columns: each adds a name to the order, and none is left without a column. -/
theorem ends_steps (par : FactorParameters F) (n : ℕ) (s : State F) (hn : n ≤ s.rest.colKeys.length) :
    (steps par n s).Ends (fun s' => s'.order.length = s.order.length + n)
      (fun e => e ≠ .emptyPivot ∧ (FullDiagonal s.rest → ∀ k, e ≠ .missingDiagonal k)) fun _ => True := by
  induction n generalizing s with
  | zero => exact rfl
  | succ n ih =>
    refine Outcome.Ends.bind ((ends_step par s).mono (fun _ h => h) ?_ fun _ h => h) ?_
    · intro e he
      refine ⟨?_, ?_⟩
      · rintro rfl
        have hnil : s.rest.colKeys = [] := he
        simp [hnil] at hn
      · rintro hfull k rfl
        exact he.2 (hfull k he.1)
    · rintro s' ⟨key, h⟩
      have hlength := h.length_rest
      refine (ih s' (by omega)).mono ?_ ?_ fun _ hf => hf
      · intro s'' horder
        rw [horder, h.order_eq, List.length_append, List.length_singleton]
        omega
      · intro e he
        exact ⟨he.1, fun hfull => he.2 (h.fullDiagonal hfull)⟩

theorem ends_compute (par : FactorParameters F) (A : BlockMatrix F) :
    (compute par A).Ends (fun f => f.order.length = A.colKeys.length)
      (fun e => e ≠ .emptyPivot ∧ (FullDiagonal A → ∀ k, e ≠ .missingDiagonal k)) fun _ => True := by
  refine Outcome.Ends.report_bind ((ends_steps par _ (.start A) le_rfl).bind fun s hs => ?_)
  refine Outcome.Ends.lift_bind_any fun upper => ?_
  refine Outcome.Ends.report_bind (Outcome.Ends.pure_iff.mpr ?_)
  rw [hs, State.start, List.length_nil, Nat.zero_add]

/-- With a bare column, a run under the rule of least fill does not come to its first elimination. -/
theorem FirstBare.compute_eq (h : FirstBare A k) {par : FactorParameters F} (hrule : par.rule = .minFill) :
    (compute par A).Yields (fun _ => False) (· = .missingDiagonal k) ∧ (compute par A).Tells Choosing := by
  have hpos : 0 < A.colKeys.length := List.length_pos_of_mem h.1
  obtain ⟨n, hn⟩ := Nat.exists_eq_succ_of_ne_zero hpos.ne'
  have hleast := yields_leastFill_of_firstBare h
  have hnext : (nextPivot par.rule A).Yields (fun _ => False) (· = .missingDiagonal k) := by
    rw [hrule]
    exact Outcome.Ends.stop_bind hleast
  have hnextTells : (nextPivot par.rule A).Tells Choosing := by
    rw [hrule]
    exact (tells_leastFill A).stop_bind hleast
  have hsteps : (steps par A.colKeys.length (.start A)).Yields (fun _ => False) (· = .missingDiagonal k) := by
    rw [hn]
    exact Outcome.Ends.stop_bind (Outcome.Ends.stop_bind hnext)
  have hstepsTells : (steps par A.colKeys.length (.start A)).Tells Choosing := by
    rw [hn]
    exact (hnextTells.stop_bind hnext).stop_bind (Outcome.Ends.stop_bind hnext)
  constructor
  · exact Outcome.Yields.report_bind (Outcome.Ends.stop_bind hsteps)
  · refine (Outcome.Tells.reportIfTold ?_).bind fun _ => hstepsTells.stop_bind hsteps
    refine Ensures.bind_any fun m => ?_
    refine Ensures.bind_any fun n => ?_
    exact Ensures.pure_iff.mpr fun _ _ => nofun

/-- How a factorization ends, for every matrix. It never runs out of columns, its order is as long as there are columns,
and the rule of least fill finds a diagonal block missing exactly if a column of the matrix has none: then at the first
such column, before any elimination. -/
theorem compute_outcome (par : FactorParameters F) (A : BlockMatrix F) :
    (compute par A).result ≠ .error (.error .emptyPivot) ∧
    (∀ f, (compute par A).result = .ok f → f.order.length = A.colKeys.length) ∧
    (par.rule = .minFill → (∀ g, (compute par A).result ≠ .error (.fault g)) →
      ((∃ k, (compute par A).result = .error (.error (.missingDiagonal k))) ↔ ∃ k ∈ A.colKeys, ¬A.contains k k) ∧
      ∀ k, (compute par A).result = .error (.error (.missingDiagonal k)) →
        FirstBare A k ∧ ∀ key fill, .ok (.eliminating key fill) ∉ (compute par A).reports) := by
  have hends := ends_compute par A
  refine ⟨fun h => (hends.of_result_eq_error h).1 rfl, fun f h => hends.of_result_eq_ok h, ?_⟩
  intro hrule hfault
  have hbare : ∀ {k}, FirstBare A k → (compute par A).result = .error (.error (.missingDiagonal k)) := by
    intro k hk
    have hyields := (hk.compute_eq hrule).1
    unfold Outcome.Yields at hyields
    split at hyields
    case h_1 => exact hyields.elim
    case h_2 e he => rw [he, hyields]
    case h_3 g hg => exact absurd hg (hfault g)
  have hmissing : ∀ {k}, (compute par A).result = .error (.error (.missingDiagonal k)) → ¬FullDiagonal A :=
    fun h hfull => (hends.of_result_eq_error h).2 hfull _ rfl
  constructor
  · constructor
    · rintro ⟨k, h⟩
      obtain ⟨j, hj, hnot, -⟩ := exists_firstBare (hmissing h)
      exact ⟨j, hj, hnot⟩
    · rintro ⟨k, hk, hnot⟩
      obtain ⟨j, hj⟩ := exists_firstBare fun hfull => hnot (hfull k hk)
      exact ⟨j, hbare hj⟩
  · intro k h
    obtain ⟨j, hj⟩ := exists_firstBare (hmissing h)
    have heq := (hbare hj).symm.trans h
    cases heq
    exact ⟨hj, fun key fill hmem => (hj.compute_eq hrule).2 _ hmem key fill rfl⟩

end Run

/-- The column `c` has one block, which is off its diagonal. -/
def lopsided : BlockMatrix ℚ :=
  let square := (BlockMatrix.empty.set "a" "a" (.ofScalar 1 2)).set "b" "b" (.ofScalar 1 3)
  (square.set "b" "a" (.ofScalar 1 5)).set "a" "c" (.ofScalar 1 7)

theorem lopsided_outcome :
    (∃ k, (compute ⟨0, .minFill⟩ lopsided).result = .error (.error (.missingDiagonal k)) ∧
      FirstBare lopsided k ∧ ∀ key fill, .ok (.eliminating key fill) ∉ (compute ⟨0, .minFill⟩ lopsided).reports) ∧
    ∃ f, (compute ⟨0, .minFill⟩ (lopsided.erase "a" "c")).result = .ok f ∧ f.order.length = 2 ∧
      ¬∃ k ∈ (lopsided.erase "a" "c").colKeys, ¬(lopsided.erase "a" "c").contains k k := by
  constructor
  · have hresult : (compute ⟨0, .minFill⟩ lopsided).result = .error (.error (.missingDiagonal "c")) :=
      eq_error_of_map (by decide +kernel)
    obtain ⟨-, -, hminFill⟩ := compute_outcome ⟨0, .minFill⟩ lopsided
    obtain ⟨hiff, hfirst⟩ := hminFill rfl fun g hg => by cases hresult.symm.trans hg
    obtain ⟨k, hk⟩ := hiff.mpr ⟨"c", by decide +kernel, by decide +kernel⟩
    exact ⟨k, hk, hfirst k hk⟩
  · obtain ⟨f, hf⟩ := exists_eq_ok
      (show (compute ⟨0, .minFill⟩ (lopsided.erase "a" "c")).result.toBool = true by decide +kernel)
    obtain ⟨-, hlength, hminFill⟩ := compute_outcome ⟨0, .minFill⟩ (lopsided.erase "a" "c")
    obtain ⟨hiff, -⟩ := hminFill rfl fun g hg => by cases hf.symm.trans hg
    refine ⟨f, hf, (hlength f hf).trans (by decide +kernel), fun hbare => ?_⟩
    obtain ⟨k, hk⟩ := hiff.mpr hbare
    cases hf.symm.trans hk

end BlockElimination.Factor
