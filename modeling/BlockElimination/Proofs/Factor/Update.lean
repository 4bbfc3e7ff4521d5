import BlockElimination.Proofs.BlockMatrix.Matched
import BlockElimination.Proofs.BlockMatrix.Meetings
import BlockElimination.Proofs.BlockMatrix.Reachable
import BlockElimination.Proofs.Factor.LeastFill
import BlockElimination.Proofs.LinearMap.Product

/-!
# The update that an elimination subtracts

Fill is estimated before anything is computed, from the kinds that the blocks of `V D⁻¹ Vᵀ` are predicted to have. They do
have these kinds: the inverse keeps the kind of the diagonal block, no place is met by two pairs of blocks, and the kind
of a product is a function of those of its factors, up to Kronecker products that have to be written out.
-/
namespace BlockElimination

/-- A map of kind `actual` stands where one of kind `predicted` was expected: only a Kronecker product may be dense. -/
def Kind.Admits (predicted actual : Kind) : Prop := actual = predicted ∨ predicted = .kron ∧ actual = .dense

namespace LinearMap

theorem HasProductKind.admits_update {F : Type} {a d b inv Q P : LinearMap F} (hinv : inv.kind = d.kind)
    (hQ : HasProductKind a inv Q) (hP : HasProductKind Q b.transpose P) :
    (Kind.ofUpdate a.kind d.kind b.kind).Admits P.kind := by
  have hb : b.transpose.kind = b.kind := kind_transpose b
  by_cases hunchained : Unchained a inv
  · -- `Q` is dense where a Kronecker product was predicted, and so is its product with all but a scalar map.
    have hdense : Q.kind = .dense := hQ.1 hunchained
    have hPkind := hP.2 (not_unchained (.inl (by simp [hdense])))
    rw [hdense, hb] at hPkind
    obtain ⟨_, _, _, _, rfl, rfl, -⟩ := hunchained
    rw [hPkind, ← hinv]
    cases b.kind with
    | dense => exact .inl rfl
    | kron => exact .inr ⟨rfl, rfl⟩
    | diag => exact .inl rfl
    | scalar => exact .inr ⟨rfl, rfl⟩
  · have hQkind := hQ.2 hunchained
    rw [hinv] at hQkind
    by_cases hthird : Unchained Q b.transpose
    · have hPkind := hP.1 hthird
      obtain ⟨_, _, _, _, hQkron, hbkron, -⟩ := hthird
      rw [hQkron] at hQkind
      have hbkind : b.kind = .kron := by rw [← hb, hbkron]; rfl
      refine .inr ⟨?_, hPkind⟩
      rw [Kind.ofUpdate, ← hQkind, hbkind]
      rfl
    · have hPkind := hP.2 hthird
      rw [hQkind, hb] at hPkind
      exact .inl hPkind

end LinearMap

namespace Factor

open BlockMatrix

section Kinds
variable {F : Type} {A : BlockMatrix F} {key : String}

/-- `V D⁻¹ Vᵀ` for the column `V` of `key` off its diagonal, in the order in which an elimination multiplies. -/
def update [Arith F] (A : BlockMatrix F) (key : String) (inv : LinearMap F) : Outcome BlockError (BlockMatrix F) := do
  let d ← BlockMatrix.empty.insertOrAdd key key inv
  let v ← offDiagonal A key
  let vd ← v.mul d
  let vt ← v.transpose
  vd.mul vt

/-- The blocks of `V D⁻¹ Vᵀ` have the kinds from which the fill is estimated, or are dense where a Kronecker product was
predicted. -/
def HasPredictedKinds (A : BlockMatrix F) (key : String) (U : BlockMatrix F) : Prop :=
  ∀ i j a d b, i ≠ key → j ≠ key → A.get? i key = some a → A.get? key key = some d → A.get? j key = some b →
    ∃ P, U.get? i j = some P ∧ (Kind.ofUpdate a.kind d.kind b.kind).Admits P.kind

variable [Scalar F] {eps : F} {inv : LinearMap F}

theorem exists_diagonal_of_pivotInverse (h : (pivotInverse eps A key).result = .ok inv) :
    ∃ d, A.get? key key = some d ∧ (d.inverse eps).result = .ok inv := by
  obtain ⟨d, hd, h⟩ := Outcome.exists_of_bind_eq_ok h
  exact ⟨d, (yields_diagonal A key).of_result_eq_ok hd, Outcome.result_eq_ok_of_mapError h⟩

/-- A column of one column count is enough for its update to be computed. -/
theorem yields_update (hA : A.WellFormed) (h : (pivotInverse eps A key).result = .ok inv) :
    (update A key inv).Returns (HasPredictedKinds A key) := by
  obtain ⟨d, hd, hinv⟩ := exists_diagonal_of_pivotInverse h
  obtain ⟨-, hinvSized⟩ := (LinearMap.Sized.yields_inverse eps ⟨rfl, rfl⟩).of_result_eq_ok hinv
  have hinvKind : inv.kind = d.kind := LinearMap.kind_eq_of_inverse hinv
  let m : String → ℕ := fun i => (A.get? i key).elim 0 LinearMap.rows
  let n : String → ℕ := fun _ => d.cols
  have hcolumn : ∀ {i K}, A.get? i key = some K → K.Sized (m i) (n key) := fun {i K} hK =>
    ⟨by simp [m, hK], hA.cols_eq hK hd⟩
  have hD : (single key inv).Consistent n n := (Consistent.empty n n).set hinvSized
  have hempty : key ∉ (BlockMatrix.empty : BlockMatrix F).colKeys := nofun
  rw [update, insertOrAdd_of_not_mem_colKeys hempty]
  refine Outcome.Yields.lift_bind (p := (· = single key inv)) rfl ?_
  rintro _ rfl
  refine Outcome.Yields.lift_bind (yields_offDiagonal_of hcolumn) fun V hV => ?_
  -- All blocks of `V` are in the column of `key`, so that the pairs which meet have met there.
  have hVkey : ∀ {i k}, V.contains i k → k = key := fun hc => ((hV.contains_iff _ _).mp hc).2.1
  have hVD : MeetOnce V (single key inv) := fun i j k k' hk _ hk' _ => (hVkey hk).trans (hVkey hk').symm
  refine (hV.conforms.consistent.yields_hasProducts hD hVD).bind fun VD ⟨hVDc, hVDp⟩ => ?_
  refine Outcome.Yields.lift_bind hV.conforms.consistent.yields_transposed fun VT ⟨hVTc, hVTget⟩ => ?_
  have hVDT : MeetOnce VD VT := fun i j k k' _ hk _ hk' => by
    rw [contains_of_transpose hVTget] at hk hk'
    exact (hVkey hk).trans (hVkey hk').symm
  refine (hVDc.yields_hasProducts hVTc.consistent hVDT).mono (fun U hU => ?_) fun _ hf => hf
  intro i j a d' b hi hj ha hd' hb
  obtain rfl : d = d' := Option.some.inj (hd.symm.trans hd')
  have hVi : V.get? i key = some a := by rw [hV.get?_eq, if_pos ⟨hi, rfl⟩, ha]
  have hVj : VT.get? key j = some b.transpose := by
    rw [hVTget, hV.get?_eq, if_pos ⟨hj, rfl⟩, hb]
    rfl
  have hkey : (single key inv).get? key key = some inv := by simp [single]
  obtain ⟨Q, hQ, hQmul⟩ := hVDp.exists_product hVi hkey
  obtain ⟨P, hP, hPmul⟩ := hU.2.exists_product hQ hVj
  have hQkind := ((hcolumn ha).yields_hasProductKind hinvSized).of_eq_ok hQmul
  have hPkind := ((hVDc i key Q hQ).yields_hasProductKind (hVTc.consistent key j _ hVj)).of_eq_ok hPmul
  exact ⟨P, hP, hQkind.admits_update hinvKind hPkind⟩

end Kinds

section Run
variable {F : Type} [Scalar F] {par : FactorParameters F} {s s' : State F}

/-- An elimination that succeeds has chosen a name, has inverted its diagonal block and has subtracted its update. -/
theorem exists_update_of_step (h : (step par s).result = .ok s') : ∃ key fill inv U,
    (nextPivot par.rule s.rest).result = .ok (key, fill) ∧ (pivotInverse par.tolerance s.rest key).result = .ok inv ∧
      (update s.rest key inv).result = .ok U ∧ (eraseKey s.rest key).sub U = .ok s'.rest := by
  obtain ⟨⟨key, fill⟩, hpivot, h⟩ := Outcome.exists_of_bind_eq_ok h
  obtain ⟨_, -, h⟩ := Outcome.exists_of_bind_eq_ok h
  obtain ⟨inv, hinv, h⟩ := Outcome.exists_of_bind_eq_ok h
  obtain ⟨dim, -, h⟩ := Outcome.exists_of_bind_eq_ok h
  obtain ⟨D, hD, h⟩ := Outcome.exists_of_bind_eq_ok h
  obtain ⟨V, hV, h⟩ := Outcome.exists_of_bind_eq_ok h
  obtain ⟨VD, hVD, h⟩ := Outcome.exists_of_bind_eq_ok h
  obtain ⟨lower, -, h⟩ := Outcome.exists_of_bind_eq_ok h
  obtain ⟨diagInv, -, h⟩ := Outcome.exists_of_bind_eq_ok h
  obtain ⟨VT, hVT, h⟩ := Outcome.exists_of_bind_eq_ok h
  obtain ⟨U, hU, h⟩ := Outcome.exists_of_bind_eq_ok h
  obtain ⟨rest, hrest, h⟩ := Outcome.exists_of_bind_eq_ok h
  cases h
  refine ⟨key, fill, inv, U, hpivot, hinv, ?_, Outcome.ofExcept_result_eq_ok_iff.mp hrest⟩
  exact Outcome.bind_result_eq_ok hD (Outcome.bind_result_eq_ok hV (Outcome.bind_result_eq_ok hVD
    (Outcome.bind_result_eq_ok hVT hU)))

omit [Scalar F] in
theorem wellFormed_eraseKey {A : BlockMatrix F} (hA : A.WellFormed) (key : String) : (eraseKey A key).WellFormed := by
  obtain ⟨rows, hrows, -⟩ := exists_eraseKey_eq_foldl A key
  rw [hrows]
  clear hrows
  induction rows generalizing A with
  | nil => exact hA
  | cons row rows ih =>
    refine ih ?_
    unfold erasePair
    split
    · exact hA.erase row key
    · exact (hA.erase row key).erase key row

theorem wellFormed_of_step (hs : s.rest.WellFormed) (h : (step par s).result = .ok s') : s'.rest.WellFormed := by
  obtain ⟨key, fill, inv, U, -, -, -, hrest⟩ := exists_update_of_step h
  exact WellFormed.keptByInsertion.insertAll (wellFormed_eraseKey hs key) _ _ hrest

/-- Each elimination takes one column at most. -/
theorem ends_steps_rest (par : FactorParameters F) (n : ℕ) (hs : s.rest.WellFormed) :
    (steps par n s).Ends
      (fun s' => s'.rest.WellFormed ∧ s.rest.colKeys.length ≤ s'.rest.colKeys.length + n) (fun _ => True)
      fun _ => True := by
  induction n generalizing s with
  | zero => exact ⟨hs, le_rfl⟩
  | succ n ih =>
    have hstep := ((ends_step par s).and fun _ => wellFormed_of_step hs).mono (fun _ h => h) (fun _ _ => trivial)
      fun _ h => h
    refine hstep.bind ?_
    rintro s' ⟨hs', key, hreshapes⟩
    refine (ih hs').mono (fun s'' hs'' => ⟨hs''.1, ?_⟩) (fun _ h => h) fun _ h => h
    have hlength := hreshapes.length_rest
    have hrun := hs''.2
    omega

/-- What is left of a matrix when one of the steps of its factorization begins. -/
def Working (A : BlockMatrix F) : Prop :=
  ∃ (par : FactorParameters F) (B : BlockMatrix F) (n : ℕ) (s : State F), B.Reachable ∧ n < B.colKeys.length ∧
    (steps par n (.start B)).result = .ok s ∧ s.rest = A

theorem Working.wellFormed_and_ne_nil {A : BlockMatrix F} (h : Working A) : A.WellFormed ∧ A.colKeys ≠ [] := by
  obtain ⟨par, B, n, s, hB, hn, hrun, rfl⟩ := h
  obtain ⟨hwellFormed, hlength⟩ :=
    (ends_steps_rest (s := .start B) par n hB.wellFormed).of_result_eq_ok hrun
  refine ⟨hwellFormed, fun hnil => ?_⟩
  rw [hnil] at hlength
  have hstart : n < (State.start B).rest.colKeys.length := hn
  simp only [List.length_nil] at hlength
  omega

/-- The rule of least fill chooses the first column of least fill, unless a size leaves its range. Whenever a diagonal
block of the matrix is inverted, the update of its name is computed and has the kinds that the fill was estimated from,
and this is the update that an elimination under this rule subtracts. -/
theorem Working.leastFill_and_update {A : BlockMatrix F} (hA : Working A) (hfull : FullDiagonal A) :
    (nextPivot .minFill A).Returns (LeastFill A) ∧
    (∀ key eps inv, (pivotInverse eps A key).result = .ok inv → (update A key inv).Returns (HasPredictedKinds A key)) ∧
    ∀ par s s', par.rule = .minFill → s.rest = A → (step par s).result = .ok s' → ∃ key inv U,
      LeastFill A (key, fillSum A key) ∧ (pivotInverse par.tolerance A key).result = .ok inv ∧
        (update A key inv).result = .ok U ∧ HasPredictedKinds A key U ∧ (eraseKey A key).sub U = .ok s'.rest := by
  obtain ⟨hwellFormed, hne⟩ := hA.wellFormed_and_ne_nil
  have hchoice := yields_nextPivot_leastFill hfull hne
  refine ⟨hchoice, fun key eps inv hinv => yields_update hwellFormed hinv, ?_⟩
  rintro par s s' hrule rfl hstep
  obtain ⟨key, fill, inv, U, hpivot, hinv, hupdate, hrest⟩ := exists_update_of_step hstep
  rw [hrule] at hpivot
  have hleast : LeastFill s.rest (key, fill) := hchoice.of_result_eq_ok hpivot
  obtain rfl : fill = fillSum s.rest key := hleast.fill_eq
  exact ⟨key, inv, U, hleast, hinv, hupdate, (yields_update hwellFormed hinv).of_result_eq_ok hupdate, hrest⟩

end Run

/-- A star with the centre `c`. The factors at `(c, a)` do not fit those of the diagonal block of `a`. -/
def coupled : BlockMatrix ℚ :=
  let wide : LinearMap ℚ := .kron (.ofEntries 1 2 fun _ q => (q : ℚ) + 1) (.ofEntries 2 1 fun p _ => (p : ℚ) - 2)
  let column (A : BlockMatrix ℚ) (key : String) (d c : LinearMap ℚ) : BlockMatrix ℚ :=
    ((A.insertInPlace key key d).1.insertInPlace "c" key c).1
  let spokes := column (column BlockMatrix.empty "a" (.kron (.ofScalar 1 2) (.ofDiagonal #[2, 1])) wide) "b"
    (.ofDiagonal #[5, 7]) (.ofScalar 2 1)
  (((spokes.insertInPlace "c" "c" (.ofScalar 2 9)).1.insertInPlace "a" "c" wide.transpose).1.insertInPlace "b" "c"
    (.ofScalar 2 1)).1

theorem coupled_update : ∃ p key inv U s', (nextPivot .minFill coupled).result = .ok p ∧ LeastFill coupled p ∧
    (pivotInverse 0 coupled key).result = .ok inv ∧ (update coupled key inv).result = .ok U ∧
      HasPredictedKinds coupled key U ∧ (step ⟨0, .minFill⟩ (.start coupled)).result = .ok s' ∧
        (eraseKey coupled key).sub U = .ok s'.rest := by
  have hreachable : coupled.Reachable := .insertInPlace _ _ _ (.insertInPlace _ _ _ (.insertInPlace _ _ _
    (.insertInPlace _ _ _ (.insertInPlace _ _ _ (.insertInPlace _ _ _ (.insertInPlace _ _ _ .empty))))))
  have hworking : Working coupled := ⟨⟨0, .minFill⟩, coupled, 0, _, hreachable, by decide +kernel, rfl, rfl⟩
  have hfull : FullDiagonal coupled := by
    unfold FullDiagonal
    decide +kernel
  obtain ⟨hchoice, -, hstep⟩ := hworking.leastFill_and_update hfull
  obtain ⟨p, hp⟩ := exists_eq_ok (show (nextPivot .minFill coupled).result.toBool = true by decide +kernel)
  obtain ⟨s', hs'⟩ := exists_eq_ok (show (step ⟨0, .minFill⟩ (.start coupled)).result.toBool = true by decide +kernel)
  obtain ⟨key, inv, U, -, hinv, hU, hkinds, hrest⟩ := hstep ⟨0, .minFill⟩ (.start coupled) s' rfl rfl hs'
  exact ⟨p, key, inv, U, s', hp, hchoice.of_result_eq_ok hp, hinv, hU, hkinds, hs', hrest⟩

end Factor

end BlockElimination
