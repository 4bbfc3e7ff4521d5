import BlockElimination.Proofs.Announced
import BlockElimination.Proofs.LinearMap.Sizes

/-!
# How a failing inversion is announced

A map that has no inverse reports this after the part of it that has failed, and so does every product on the way out.
There are as many reports as there are maps around that part, itself included: one more than its depth.
-/
namespace BlockElimination.LinearMap

variable {F : Type}

/-- All maps that a map is made of, with their depths, each before its factors and the left factor first. -/
def parts : LinearMap F → List (ℕ × LinearMap F)
  | dense d => [(0, dense d)]
  | kron a b => (0, kron a b) :: (a.parts ++ b.parts).map fun p => (p.1 + 1, p.2)
  | diag d => [(0, diag d)]
  | scalar n alpha => [(0, scalar n alpha)]

variable [Scalar F] {eps : F} {K : LinearMap F}

/-- A square map is found singular by itself. A product leaves this to its factors. -/
def singularAlone (eps : F) : LinearMap F → Bool
  | dense d => (Kernel.symmetricInverse? d.height d.array.value eps).isNone
  | kron _ _ => false
  | diag d => d.value.any fun x => Scalar.isLe (Scalar.abs x) eps
  | scalar n alpha => decide (0 < n) && Scalar.isLe (Scalar.abs alpha.value) eps

def failsAlone (eps : F) (K : LinearMap F) : Bool := decide (K.rows ≠ K.cols) || K.singularAlone eps

/-- The depth of the first part that is not square or is found singular by itself. -/
def failureDepth (eps : F) (K : LinearMap F) : Option ℕ := (K.parts.find? fun p => p.2.failsAlone eps).map Prod.fst

theorem quiet_dense (eps : F) (d : Dense F) : (dense <$> d.inverse eps).Quiet := by
  have hquiet : (d.inverse eps).Quiet := by
    unfold Dense.inverse
    split
    · refine (Outcome.Announced.report (by simp [Event.level])).quiet.bind fun _ => ?_
      split
      · exact (Outcome.Announced.ok _).quiet
      · exact Outcome.Quiet.error _
    · exact Outcome.Quiet.error _
  exact hquiet.bind fun inv => (Outcome.Announced.ok (dense inv)).quiet

omit [Scalar F] in
theorem quiet_inverseKron {a b : LinearMap F} {invertA invertB : Outcome InversionError (LinearMap F)}
    (ha : invertA.Announced) (hb : invertB.Announced) : (inverseKron a b invertA invertB).Quiet := by
  refine (Outcome.Announced.ofExcept _).quiet.bind fun s => ?_
  dsimp only
  split
  · exact Outcome.Quiet.error _
  · refine (ha.mapError_silent _).quiet.bind fun P => ?_
    exact (hb.mapError_silent _).quiet.bind fun Q => (Outcome.Announced.ok _).quiet

omit [Scalar F] in
theorem announced_reportInversion {invert : Outcome InversionError (LinearMap F)} (h : invert.Quiet) :
    (reportInversion K invert).Announced := by
  refine (Outcome.Announced.ofExcept _).bind fun s => ?_
  dsimp only
  split
  · exact Outcome.Announced.failure rfl _
  · refine (Outcome.Announced.mapError_report h (fun _ => rfl) id).bind fun inv => ?_
    exact Outcome.Announced.ofExcept _

/-- A map without an inverse reports itself after its factors have. -/
theorem announced_inverse (eps : F) (K : LinearMap F) : (K.inverse eps).Announced := by
  induction K with
  | dense d => exact announced_reportInversion (quiet_dense eps d)
  | kron a b iha ihb => exact announced_reportInversion (quiet_inverseKron iha ihb)
  | diag d => exact announced_reportInversion (Outcome.Quiet.ofResult _)
  | scalar n alpha => exact announced_reportInversion (Outcome.Quiet.ofResult _)

theorem counts_inverse_of (hK : K.Fits) {c : Option ℕ} (h : K.rows = K.cols → (K.inverseOnly eps).Counts c) :
    (K.inverse eps).Counts (if K.rows ≠ K.cols then some 1 else c.map (· + 1)) := by
  rw [inverse_eq, reportInversion, size_of_fits hK]
  change (Outcome.ok (K.rows, K.cols) >>= _ : Outcome InversionError (LinearMap F)).Counts _
  rw [Outcome.ok_bind]
  dsimp only
  split
  case isTrue => exact Outcome.Counts.failure rfl _
  case isFalse heq =>
    refine ((h (not_not.mp heq)).mapError _ 1 (fun _ => rfl) id).bind_of_none fun inv hinv => ?_
    have hkind : inv.kind = K.kind :=
      kind_eq_of_inverseOnly (Outcome.result_eq_ok_of_mapError (Outcome.result_eq_ok_of_observed hinv))
    rw [expectKind, Operation.resultKind, if_pos (List.mem_singleton.mpr hkind)]
    exact Outcome.Counts.ok inv

omit [Scalar F] in
theorem counts_inverseKron {a b : LinearMap F} (hK : (kron a b).Fits) (hsquare : (kron a b).rows = (kron a b).cols)
    {invertA invertB : Outcome InversionError (LinearMap F)} {c d : Option ℕ} (ha : invertA.Counts c)
    (hb : invertB.Counts d) : (inverseKron a b invertA invertB).Counts (c.or d) := by
  rw [inverseKron, size_of_fits hK]
  change (Outcome.ok ((kron a b).rows, (kron a b).cols) >>= _ : Outcome InversionError (LinearMap F)).Counts _
  rw [Outcome.ok_bind]
  dsimp only
  rw [if_neg (not_not.mpr hsquare)]
  exact (ha.mapError_silent _).bind fun P _ => (hb.mapError_silent _).bind_of_none fun Q _ => Outcome.Counts.ok _

theorem counts_dense {d : Dense F} (hsquare : d.height = d.width) : (dense <$> d.inverse eps).Counts
    (if (dense d).singularAlone eps then some 0 else none) := by
  have hcounts : (d.inverse eps).Counts (if (dense d).singularAlone eps then some 0 else none) := by
    rw [Dense.inverse, if_pos hsquare, singularAlone]
    refine (Outcome.Counts.report (by simp [Event.level])).bind (c := none) fun _ _ => ?_
    cases Kernel.symmetricInverse? d.height d.array.value eps with
    | some a => exact Outcome.Counts.ok _
    | none => exact Outcome.Counts.error _
  exact hcounts.map dense

theorem counts_diag {d : Stored (Array F)} : ((diag d).inverseOnly eps).Counts
    (if (diag d).singularAlone eps then some 0 else none) := by
  rw [inverseOnly, Diagonal.inverse, singularAlone]
  split
  · exact Outcome.Counts.error _
  · exact Outcome.Counts.ok _

theorem counts_scalar {n : ℕ} {alpha : Stored F} : ((scalar n alpha).inverseOnly eps).Counts
    (if (scalar n alpha).singularAlone eps then some 0 else none) := by
  rw [inverseOnly, inverseScalar, singularAlone]
  simp only [Bool.and_eq_true, decide_eq_true_eq]
  split
  · exact Outcome.Counts.error _
  · exact Outcome.Counts.ok _

/-- A map that is not a product is its only part. -/
theorem counts_inverse_of_parts (hK : K.Fits) (hparts : K.parts = [(0, K)])
    (h : K.rows = K.cols → (K.inverseOnly eps).Counts (if K.singularAlone eps then some 0 else none)) :
    (K.inverse eps).Counts ((K.failureDepth eps).map (· + 1)) := by
  have hcounts := counts_inverse_of hK h
  have hdepth : K.failureDepth eps = if K.rows ≠ K.cols ∨ K.singularAlone eps then some 0 else none := by
    rw [failureDepth, hparts, List.find?_singleton, apply_ite (Option.map Prod.fst)]
    simp [failsAlone]
  rw [hdepth]
  by_cases hne : K.rows ≠ K.cols
  · rw [if_pos hne] at hcounts
    rwa [if_pos (.inl hne)]
  · rw [if_neg hne] at hcounts
    simpa only [hne, false_or] using hcounts

/-- A product that is square fails where the first of its factors does. -/
theorem failureDepth_kron (eps : F) (a b : LinearMap F) : (kron a b).failureDepth eps =
    if (kron a b).rows ≠ (kron a b).cols then some 0
    else ((a.failureDepth eps).or (b.failureDepth eps)).map (· + 1) := by
  have hfails : (kron a b).failsAlone eps = decide ((kron a b).rows ≠ (kron a b).cols) := by
    simp [failsAlone, singularAlone]
  rw [failureDepth, parts, List.find?_cons, hfails]
  by_cases hne : (kron a b).rows ≠ (kron a b).cols
  · simp [hne]
  · rw [if_neg hne, decide_eq_false hne, List.find?_map, List.find?_append, failureDepth, failureDepth, Option.map_map,
      ← Option.map_or, Option.map_map]
    rfl

/-- The reports of a failing inversion are one more than the depth at which it fails. -/
theorem counts_inverse (eps : F) (hK : K.Fits) : (K.inverse eps).Counts ((K.failureDepth eps).map (· + 1)) := by
  induction K with
  | dense d => exact counts_inverse_of_parts hK rfl counts_dense
  | kron a b iha ihb =>
    obtain ⟨ha, hb, -⟩ := fits_kron.mp hK
    have hcounts := counts_inverse_of hK fun hsquare => counts_inverseKron hK hsquare (iha ha) (ihb hb)
    rw [failureDepth_kron]
    split
    case isTrue hne => rwa [if_pos hne] at hcounts
    case isFalse heq => rwa [if_neg heq, ← Option.map_or] at hcounts
  | diag d => exact counts_inverse_of_parts hK rfl fun _ => counts_diag
  | scalar n alpha => exact counts_inverse_of_parts hK rfl fun _ => counts_scalar

/-- A map whose sizes leave their range has a fault for an inverse. -/
theorem fits_of_faultless (h : (K.inverse eps).Faultless) : K.Fits := by
  by_contra hK
  rw [inverse_eq] at h
  have hsize : (Outcome.ofExcept K.size : Outcome InversionError (ℕ × ℕ)).Faultless := h.of_bind
  rw [size, if_neg hK] at hsize
  exact hsize .overflow rfl

end BlockElimination.LinearMap
