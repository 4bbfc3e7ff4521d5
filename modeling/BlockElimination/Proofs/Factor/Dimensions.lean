import BlockElimination.Proofs.Factor.Solve

/-!
# Dimensions of a factorization

If every block has the size of its place, then no elimination meets operands that do not fit each other, whatever the
pattern, the values and the arithmetic are. A name may be eliminated more than once, and a solution then adds up its
segments.
-/
namespace BlockElimination.Factor

open BlockMatrix

/-- A pivot that fails is singular. -/
def OnlySingular (e : BlockError) : Prop := ∀ key cause, e = .pivot key cause → cause = .singular

theorem Lacks.onlySingular {F : Type} {A : BlockMatrix F} {e : BlockError} (h : Lacks A e) : OnlySingular e := by
  rintro key cause rfl
  exact h.elim

section Elimination
variable {F : Type} {A : BlockMatrix F} {m n dim : String → ℕ}

theorem consistent_eraseKey (h : A.Consistent m n) (key : String) : (eraseKey A key).Consistent m n := by
  intro i j K hK
  rw [get?_eraseKey_eq_ite] at hK
  split at hK
  · cases hK
  · exact h i j K hK

theorem consistent_offDiagonal [Arith F] (h : A.Consistent m n) (key : String) :
    Yields (offDiagonal A key) (·.Consistent m n) := by
  refine (BlockMatrix.Consistent.empty m n).yields_insertAll fun t ht => ?_
  obtain ⟨⟨row, a⟩, ha, rfl⟩ := List.mem_map.mp ht
  exact h row key a (mem_offDiagonalEntries.mp ha).2

/-- The parts of a state have the dimensions of their names. -/
structure State.Consistent (s : State F) (dim : String → ℕ) : Prop where
  rest : s.rest.Consistent dim dim
  lower : s.lower.Consistent dim dim
  diagInv : s.diagInv.Consistent dim dim
  dims_eq : s.dims = s.order.map dim

/-- The parts of a factor have the dimensions of their names. -/
structure Consistent (f : Factor F) (dim : String → ℕ) : Prop where
  lower : f.lower.Consistent dim dim
  upper : f.upper.Consistent dim dim
  diagInv : f.diagInv.Consistent dim dim
  dims_eq : f.dims = f.order.map dim

theorem State.Consistent.start (h : A.Consistent dim dim) : (State.start A).Consistent dim where
  rest := h
  lower := .empty dim dim
  diagInv := .empty dim dim
  dims_eq := rfl

variable [Scalar F] {s : State F}

theorem yields_pivotSize (tol : F) (h : A.Consistent dim dim) (key : String) :
    (pivotInverse tol A key).Yields (·.Sized (dim key) (dim key)) OnlySingular := by
  refine Outcome.Yields.bind ((yields_diagonal A key).mono (fun _ h => h) ?_) fun a ha => ?_
  · rintro _ ⟨rfl, -⟩ _ _ ⟨⟩
  · refine Outcome.Yields.mapError (((h key key a ha).yields_inverse tol).mono (fun _ h => h.2) fun _ h => h) ?_
    rintro _ hsingular _ _ ⟨⟩
    exact hsingular rfl

/-- One elimination. -/
theorem State.Consistent.yields_step (h : s.Consistent dim) (par : FactorParameters F) :
    (step par s).Yields (·.Consistent dim) OnlySingular := by
  refine ((yields_nextPivot par.rule s.rest).mono (fun _ h => h) fun _ h => h.onlySingular).bind fun ⟨key, fill⟩ _ => ?_
  refine Outcome.Yields.report_bind ((yields_pivotSize par.tolerance h.rest key).bind fun inv hinv => ?_)
  refine Outcome.Yields.lift_bind (LinearMap.yields_colCount hinv) ?_
  rintro _ rfl
  refine Outcome.Yields.lift_bind ((BlockMatrix.Consistent.empty dim dim).yields_insertOrAdd hinv) fun D hD => ?_
  refine Outcome.Yields.lift_bind (consistent_offDiagonal h.rest key) fun V hV => ?_
  refine (hV.yields_mul hD).bind fun VD hVD => ?_
  refine Outcome.Yields.lift_bind (h.lower.yields_addScaled hVD 1) fun lower hlower => ?_
  refine Outcome.Yields.lift_bind (h.diagInv.yields_addScaled hD 1) fun diagInv hdiagInv => ?_
  refine Outcome.Yields.lift_bind hV.yields_transpose fun VT hVT => ?_
  refine (hVD.yields_mul hVT).bind fun U hU => ?_
  refine Outcome.Yields.lift_bind ((consistent_eraseKey h.rest key).yields_addScaled hU (-1)) fun rest hrest => ?_
  refine Outcome.Yields.pure_iff.mpr ⟨hrest, hlower, hdiagInv, ?_⟩
  rw [h.dims_eq, List.map_append, List.map_singleton]

theorem State.Consistent.yields_steps (h : s.Consistent dim) (par : FactorParameters F) (n : ℕ) :
    (steps par n s).Yields (·.Consistent dim) OnlySingular := by
  induction n generalizing s with
  | zero => exact h
  | succ n ih => exact (h.yields_step par).bind fun s' hs' => ih hs'

theorem yields_consistent (par : FactorParameters F) (h : A.Consistent dim dim) :
    (compute par A).Yields (·.Consistent dim) OnlySingular := by
  refine Outcome.Yields.report_bind (((State.Consistent.start h).yields_steps par _).bind fun s hs => ?_)
  refine Outcome.Yields.lift_bind hs.lower.yields_transpose fun upper hupper => ?_
  exact Outcome.Yields.report_bind (Outcome.Yields.pure_iff.mpr ⟨hs.lower, hupper, hs.diagInv, hs.dims_eq⟩)

end Elimination

section Alignment
variable {F : Type} {dim : String → ℕ} {order : List String} {xs ys : List (String × Array F)}

/-- The segments are those of the names of `order` in turn, and have their dimensions. -/
def Aligned (dim : String → ℕ) (order : List String) (xs : List (String × Array F)) : Prop :=
  xs.map Prod.fst = order ∧ ∀ p ∈ xs, p.2.size = dim p.1

theorem Aligned.set (h : Aligned dim order xs) {i : ℕ} {key : String} {s t : Array F} (hi : xs[i]? = some (key, s))
    (ht : t.size = dim key) : Aligned dim order (xs.set i (key, t)) := by
  obtain ⟨rfl, hsize⟩ := h
  refine ⟨?_, fun p hp => ?_⟩
  · have hname : (xs.map Prod.fst)[i]? = some key := by
      rw [List.getElem?_map, hi]
      rfl
    obtain ⟨_, hname⟩ := List.getElem?_eq_some_iff.mp hname
    rw [List.map_set, ← hname, List.set_getElem_self]
  · rcases List.mem_or_eq_of_mem_set hp with hp | rfl
    · exact hsize p hp
    · exact ht

theorem Aligned.of_forall₂ (h : List.Forall₂ (fun p q => q.1 = p.1 ∧ q.2.size = dim p.1) xs ys) :
    Aligned dim (xs.map Prod.fst) ys := by
  induction h with
  | nil => exact ⟨rfl, fun _ hp => absurd hp List.not_mem_nil⟩
  | @cons p q xs ys hpq _ ih =>
    obtain ⟨hname, hsize⟩ := hpq
    refine ⟨by rw [List.map_cons, List.map_cons, hname, ih.1], ?_⟩
    rw [List.forall_mem_cons]
    exact ⟨hname ▸ hsize, ih.2⟩

end Alignment

section Solving
variable {F : Type} [Arith F] {dim : String → ℕ} {order : List String} {xs : Array (String × Array F)} {f : Factor F}
  {b : BlockVector F}

theorem Aligned.yields_sweep {L : BlockMatrix F} (hL : L.Consistent dim dim) (h : Aligned dim order xs.toList)
    (pairs : List (ℕ × ℕ)) : Yields (sweep L pairs xs) fun ys => Aligned dim order ys.toList := by
  refine Yields.foldlM (fun _ (ys : Array (String × Array F)) => Aligned dim order ys.toList) h ?_
  rintro - ⟨i, j⟩ - ys hys
  dsimp only
  split
  case h_2 => exact hys
  case h_1 row target col source hi hj =>
    rw [← Array.getElem?_toList] at hi hj
    split
    case h_2 => exact hys
    case h_1 a ha =>
      have htarget : target.size = dim row := hys.2 _ (List.mem_of_getElem? hi)
      have hsource : source.size = dim col := hys.2 _ (List.mem_of_getElem? hj)
      refine ((hL row col a ha).yields_actOn hsource htarget).bind fun y hy => Yields.pure_iff.mpr ?_
      rw [Array.toList_setIfInBounds]
      exact hys.set hi hy.2

theorem Aligned.yields_scaleByDiagonal (hf : f.diagInv.Consistent dim dim) (h : Aligned dim order xs.toList) :
    Yields (scaleByDiagonal f xs) fun ys => Aligned dim order ys.toList := by
  rw [scaleByDiagonal, Array.mapM_eq_mapM_toList]
  refine Yields.map ((Yields.forall₂_mapM (R := fun p q => q.1 = p.1 ∧ q.2.size = dim p.1) fun p hp => ?_).mono
    fun ys hys => h.1 ▸ Aligned.of_forall₂ hys)
  obtain ⟨key, x⟩ := p
  dsimp only
  split
  case h_1 d hd =>
    exact Yields.map (((hf key key d hd).yields_apply (h.2 _ hp)).mono fun z hz => ⟨rfl, hz.2⟩)
  case h_2 => exact ⟨rfl, h.2 _ hp⟩

theorem aligned_rightSide (hdims : f.dims = f.order.map dim) (hb : Fitting f.order dim b) :
    Aligned dim f.order (rightSide f b).toList := by
  rw [rightSide, zip_dims hdims, List.map_map]
  refine ⟨by simp [Function.comp_def], fun p hp => ?_⟩
  obtain ⟨k, hk, rfl⟩ := List.mem_map.mp hp
  exact hb.size_getD hk

/-- Solving for a right-hand side whose segments fit. -/
theorem Consistent.yields_solve (hf : f.Consistent dim) (hb : Fitting f.order dim b) :
    Yields (f.solve b) fun x => (∀ k, x.contains k ↔ k ∈ f.order) ∧ x.Conforms dim := by
  refine (yields_checkRightSide hf.dims_eq hb).bind fun _ _ => ?_
  refine ((aligned_rightSide hf.dims_eq hb).yields_sweep hf.lower _).bind fun y hy => ?_
  refine (hy.yields_scaleByDiagonal hf.diagInv).bind fun z hz => ?_
  refine (hz.yields_sweep hf.upper _).bind fun x hx => ?_
  refine ((BlockVector.Conforms.empty dim).yields_keys_insertAll hx.2).mono fun v hv => ⟨fun k => ?_, hv.1⟩
  rw [hv.2, hx.1]
  exact or_iff_right Bool.false_ne_true

omit [Arith F] in
theorem fitting_of_checkRightSide (hdims : f.dims = f.order.map dim) (h : checkRightSide f b = .ok ()) :
    Fitting f.order dim b := by
  rw [checkRightSide, zip_dims hdims] at h
  generalize f.order = order at h ⊢
  induction order with
  | nil => exact fun k hk => absurd hk List.not_mem_nil
  | cons key order ih =>
    rw [List.map_cons, List.forM_eq_forM, List.forM_cons] at h
    obtain ⟨_, hhead, hrest⟩ := exists_of_bind_eq_ok h
    intro k hk s hs
    rcases List.mem_cons.mp hk with rfl | hk
    · simp only [hs] at hhead
      by_contra hne
      rw [if_neg hne] at hhead
      cases hhead
    · exact ih hrest k hk s hs

end Solving

section Outcome
variable {F : Type} [Scalar F] {A : BlockMatrix F} {dim : String → ℕ}

/-- If the blocks have the sizes of their places, a factorization only faults where a size leaves its range, and a pivot
that fails is singular. Solving with the factor faults exactly on a segment of another dimension; else it gives every
name of the order a segment of its dimension. -/
theorem compute_safe (par : FactorParameters F) (hA : A.Consistent dim dim) :
    (compute par A).Yields
      (fun f => ∀ b, (f.solve b ≠ .error .overflow → ((∃ g, f.solve b = .error g) ↔
          ∃ k ∈ f.order, ∃ s, b.get? k = some s ∧ s.size ≠ dim k)) ∧
        ∀ x, f.solve b = .ok x → (∀ k, x.contains k ↔ k ∈ f.order) ∧ x.Conforms dim)
      fun e => ∀ key cause, e = .pivot key cause → cause = .singular := by
  refine (yields_consistent par hA).mono (fun f hf b => ?_) fun _ h => h
  have hfitting : ∀ {x}, f.solve b = .ok x → Fitting f.order dim b := fun hx => by
    obtain ⟨_, hcheck, -⟩ := exists_of_bind_eq_ok hx
    exact fitting_of_checkRightSide hf.dims_eq hcheck
  refine ⟨fun hoverflow => ⟨?_, ?_⟩, fun x hx => (hf.yields_solve (hfitting hx)).of_eq_ok hx⟩
  · rintro ⟨g, hg⟩
    by_contra hnone
    push Not at hnone
    have hfault := hf.yields_solve hnone
    rw [hg] at hfault hoverflow
    exact hoverflow (congrArg Except.error hfault)
  · rintro ⟨k, hk, s, hs, hne⟩
    cases hsolve : f.solve b with
    | error g => exact ⟨g, rfl⟩
    | ok x => exact absurd (hfitting hsolve k hk s hs) hne

end Outcome

/-- The block `(a, b)` has no transpose, so that the elimination of `b` brings `a` back. -/
def recurring : BlockMatrix ℚ :=
  let row := LinearMap.ofEntries 1 2 fun _ q => (q : ℚ) + 1
  (((BlockMatrix.empty.set "a" "a" (.ofScalar 1 2)).set "a" "b" row).set "b" "b" (.ofScalar 2 3)).set "c" "c"
    (.ofScalar 1 5)

def recurringDim (k : String) : ℕ := if k = "b" then 2 else 1

theorem recurring_safe : ∃ f, (compute ⟨0, .natural⟩ recurring).result = .ok f ∧ f.order = ["a", "b", "a"] ∧
    (∃ g, f.solve ⟨Keyed.empty.insert "b" #[1]⟩ = .error g) ∧
    ∃ x, f.solve ⟨Keyed.empty.insert "b" #[1, 2]⟩ = .ok x ∧ (∀ k, x.contains k ↔ k ∈ f.order) ∧
      x.Conforms recurringDim := by
  have hA : recurring.Consistent recurringDim recurringDim := by
    have hempty := BlockMatrix.Consistent.empty (F := ℚ) recurringDim recurringDim
    apply BlockMatrix.Consistent.set (.set (.set (hempty.set ?_) ?_) ?_)
    all_goals exact ⟨rfl, rfl⟩
  obtain ⟨f, hf⟩ := exists_eq_ok (show (compute ⟨0, .natural⟩ recurring).result.toBool = true by decide +kernel)
  have hrun : ∀ g ∈ (compute ⟨0, .natural⟩ recurring).result.toOption, g.order = ["a", "b", "a"] ∧
      ((g.solve ⟨Keyed.empty.insert "b" #[1]⟩).map fun _ => ()) = .error (.rightSideLength "b" 1 2) ∧
      (g.solve ⟨Keyed.empty.insert "b" #[1, 2]⟩).toBool = true := by
    decide +kernel
  obtain ⟨horder, hmisfit, hfit⟩ := hrun f (by rw [hf]; exact rfl)
  have hsafe := (compute_safe ⟨0, .natural⟩ hA).of_result_eq_ok hf
  obtain ⟨x, hx⟩ := exists_eq_ok hfit
  have hoverflow : f.solve ⟨Keyed.empty.insert "b" #[1]⟩ ≠ .error .overflow := fun h => by
    cases (eq_error_of_map hmisfit).symm.trans h
  refine ⟨f, hf, horder, ((hsafe _).1 hoverflow).mpr ⟨"b", ?_, #[1], rfl, by decide⟩, x, hx, (hsafe _).2 x hx⟩
  rw [horder]
  decide

end BlockElimination.Factor
