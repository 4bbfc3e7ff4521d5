import BlockElimination.Proofs.LinearMap.Lengths
import BlockElimination.Proofs.LinearMap.Transposed

/-!
# What is left of the old result

With `β = 0` the result is `α K x`, and yet most representations read `y` and multiply it by zero, which only in exact
arithmetic makes no difference. A multiple of the identity alone overwrites `y`. In a Kronecker product it is the
leftmost factor that writes the result, so that factor decides for the whole product. No law of arithmetic is used.
-/
namespace BlockElimination.LinearMap

variable {F : Type}

/-- The kind of the factor that writes the result. -/
def writer : LinearMap F → Kind
  | kron a _ => a.writer
  | dense _ => .dense
  | diag _ => .diag
  | scalar _ _ => .scalar

variable [Arith F] {K : LinearMap F} {flip : Bool} {alpha : F} {x y y' : Array F} {p : ℕ}

/-- `α K x`, as each representation computes it before `y` comes in. -/
def product (flip : Bool) : LinearMap F → F → Array F → Array F
  | dense d, alpha, x => tabulate ((dense d).outer flip) fun r =>
    alpha * ascendingSum x.size fun c => Kernel.storedEntry (flip ^^ d.flipped) d.rows d.array.value r c * coord x c
  | kron a b, alpha, x =>
    let na := a.inner flip
    let mb := b.outer flip
    let nb := b.inner flip
    let t := tabulate na fun c =>
      b.action flip 1 (tabulate nb fun q => coord x (c * nb + q)) 0 (Kernel.zeros mb)
    let lines := tabulate mb fun r => a.product flip alpha (tabulate na fun c => coord (t.getD c #[]) r)
    tabulate (a.outer flip * mb) fun p => coord (lines.getD (p % mb) #[]) (p / mb)
  | diag d, alpha, x => tabulate d.value.size fun i => alpha * coord d.value i * coord x i
  | scalar _ s, alpha, x => Kernel.scale (alpha * s.value) x

/-- The element `p` of the result, if `y` has `v` there and is read. -/
def readOver (flip : Bool) (K : LinearMap F) (alpha : F) (x : Array F) (p : ℕ) (v : F) : F :=
  if K.inner flip = 0 then 0 * v else coord (K.product flip alpha x) p + 0 * v

omit [Arith F] in
/-- The sizes of a dense map, from those of its array. -/
theorem sizes_dense (flip : Bool) (d : Dense F) :
    (dense d).inner flip = (if flip ^^ d.flipped then d.rows else d.cols) ∧
      (dense d).outer flip = if flip ^^ d.flipped then d.cols else d.rows := by
  cases flip <;> cases hflip : d.flipped <;>
    simp [inner, outer, rows, cols, Dense.height, Dense.width, hflip]

theorem coord_scale_of_lt (beta : F) (hp : p < y.size) : coord (Kernel.scale beta y) p = beta * coord y p := by
  rw [Kernel.scale_eq_tabulate, coord_tabulate, if_pos hp]

/-- A map without columns multiplies `y` by zero, of whichever kind it is. -/
theorem coord_action_of_inner_eq_zero (hinner : K.inner flip = 0) (hy : y.size = K.outer flip) (hp : p < K.outer flip) :
    coord (K.action flip alpha x 0 y) p = 0 * coord y p := by
  have hp' : p < y.size := hy ▸ hp
  cases K with
  | dense d =>
    have hempty : ¬(0 < d.rows ∧ 0 < d.cols) := by
      rw [(sizes_dense flip d).1] at hinner
      split at hinner <;> omega
    rw [action, Dense.action, if_neg hempty, coord_scale_of_lt _ hp']
  | kron a b =>
    rw [inner_kron, Nat.mul_eq_zero] at hinner
    have hempty : a.outer flip = 0 ∨ a.inner flip = 0 ∨ b.outer flip = 0 ∨ b.inner flip = 0 := by tauto
    rw [action]
    exact (congrArg (coord · p) (if_pos hempty)).trans (coord_scale_of_lt _ hp')
  | diag d => cases flip <;> exact absurd (hinner ▸ hp) (Nat.not_lt_zero p)
  | scalar n s => cases flip <;> exact absurd (hinner ▸ hp) (Nat.not_lt_zero p)

/-- A map with columns adds zero times `y`, unless what writes the result is a multiple of the identity. -/
theorem coord_action_zero (hzero : ((0 : F) == 0) = true) (hx : x.size = K.inner flip) (hy : y.size = K.outer flip)
    (hinner : K.inner flip ≠ 0) (hp : p < K.outer flip) :
    coord (K.action flip alpha x 0 y) p =
      if K.writer = .scalar then coord (K.product flip alpha x) p
      else coord (K.product flip alpha x) p + 0 * coord y p := by
  induction K generalizing alpha x y p with
  | dense d =>
    have hpos : 0 < d.rows ∧ 0 < d.cols := by
      rw [(sizes_dense flip d).1] at hinner
      rw [(sizes_dense flip d).2] at hp
      cases hflip : flip ^^ d.flipped <;>
        simp only [hflip, if_true, Bool.false_eq_true, if_false] at hinner hp <;> omega
    have hp' : p < y.size := hy ▸ hp
    rw [action, Dense.action, if_pos hpos, Kernel.matrixAction, coord_tabulate, if_pos hp', product, coord_tabulate,
      if_pos hp, if_neg (by simp [writer])]
  | kron a b iha _ =>
    rw [inner_kron] at hinner
    rw [outer_kron] at hp
    have hmod : p % b.outer flip < b.outer flip := Nat.mod_lt p (Nat.pos_of_mul_pos_left (Nat.zero_lt_of_lt hp))
    have hdiv : p / b.outer flip < a.outer flip := Nat.div_lt_of_lt_mul (by rwa [Nat.mul_comm])
    have hsizes : ¬(a.outer flip = 0 ∨ a.inner flip = 0 ∨ b.outer flip = 0 ∨ b.inner flip = 0) := by
      rintro (h | h | h | h)
      · exact absurd (h ▸ hdiv) (Nat.not_lt_zero _)
      · exact hinner (by rw [h, Nat.zero_mul])
      · exact absurd (h ▸ hmod) (Nat.not_lt_zero _)
      · exact hinner (by rw [h, Nat.mul_zero])
    -- The line of the result that holds `p` is written by the left factor, over the line of `y` that holds it.
    simp only [action, product, hsizes, if_false, coord_tabulate, hp, if_true, getD_tabulate _ _ hmod]
    rw [iha (size_tabulate _ _) (size_tabulate _ _) (fun h => hsizes (.inr (.inl h))) hdiv, coord_tabulate, if_pos hdiv,
      Nat.div_add_mod']
    rfl
  | diag d =>
    have hp' : p < y.size := hy ▸ hp
    have hd : p < d.value.size := by cases flip <;> exact hp
    rw [action, Kernel.diagonalAction, coord_tabulate, if_pos hp', product, coord_tabulate, if_pos hd,
      if_neg (by simp [writer])]
  | scalar n s => simp only [action, product, writer, hzero, if_true]

theorem size_action_of_flip (hx : x.size = K.inner flip) (hy : y.size = K.outer flip) :
    (K.action flip alpha x 0 y).size = K.outer flip := by
  cases flip with
  | false => exact size_action hx hy
  | true =>
    rw [action_true, size_action (hx.trans K.cols_transpose.symm) (hy.trans K.rows_transpose.symm), rows_transpose]
    rfl

theorem eq_iff_forall_coord {a b : Array F} {n : ℕ} (ha : a.size = n) (hb : b.size = n) :
    a = b ↔ ∀ p < n, coord a p = coord b p := by
  refine ⟨fun h p _ => h ▸ rfl, fun h => ?_⟩
  rw [eq_tabulate_coord a, eq_tabulate_coord b, ha, hb]
  exact tabulate_congr h

theorem checkedAction_zero_eq_iff (hzero : ((0 : F) == 0) = true) (hfits : K.Fits) (hx : x.size = K.inner flip)
    (hy : y.size = K.outer flip) (hy' : y'.size = K.outer flip) :
    K.checkedAction flip alpha x 0 y = K.checkedAction flip alpha x 0 y' ↔
      ¬K.Buffered flip ∨ K.inner flip ≠ 0 ∧ K.writer = .scalar ∨
        ∀ p < K.outer flip, K.readOver flip alpha x p (coord y p) = K.readOver flip alpha x p (coord y' p) := by
  rw [checkedAction_eq (fun _ => hfits) hx hy, checkedAction_eq (fun _ => hfits) hx hy']
  by_cases hbuffered : K.Buffered flip
  case neg => simp [hbuffered]
  rw [if_pos hbuffered, if_pos hbuffered, or_iff_right (not_not.mpr hbuffered), Except.ok.injEq,
    eq_iff_forall_coord (size_action_of_flip hx hy) (size_action_of_flip hx hy')]
  by_cases hinner : K.inner flip = 0
  · rw [or_iff_right fun h => h.1 hinner]
    refine forall₂_congr fun p hp => ?_
    rw [coord_action_of_inner_eq_zero hinner hy hp, coord_action_of_inner_eq_zero hinner hy' hp, readOver, readOver,
      if_pos hinner, if_pos hinner]
  · by_cases hwriter : K.writer = .scalar
    · refine iff_of_true (fun p hp => ?_) (.inl ⟨hinner, hwriter⟩)
      rw [coord_action_zero hzero hx hy hinner hp, coord_action_zero hzero hx hy' hinner hp, if_pos hwriter,
        if_pos hwriter]
    · rw [or_iff_right fun h => hwriter h.2]
      refine forall₂_congr fun p hp => ?_
      rw [coord_action_zero hzero hx hy hinner hp, coord_action_zero hzero hx hy' hinner hp, if_neg hwriter,
        if_neg hwriter, readOver, readOver, if_neg hinner, if_neg hinner]

/-- When two runs with `β = 0` leave the same result. Whatever was in the two vectors, they do if a buffer is too large for
both, and if the map has columns and its result is written by a multiple of the identity. Otherwise every element of `y`
is read and multiplied by zero, and they do just where this leaves the same number. -/
theorem actions_overwrite_iff (hzero : ((0 : F) == 0) = true) (hfits : K.Fits) (alpha : F) :
    (∀ x y y' : Array F, x.size = K.cols → y.size = K.rows → y'.size = K.rows →
      (K.actOn alpha x 0 y = K.actOn alpha x 0 y' ↔ ¬K.Buffered false ∨ K.cols ≠ 0 ∧ K.writer = .scalar ∨
        ∀ p < K.rows, K.readOver false alpha x p (coord y p) = K.readOver false alpha x p (coord y' p))) ∧
    ∀ x y y' : Array F, x.size = K.rows → y.size = K.cols → y'.size = K.cols →
      (K.transposeActOn alpha x 0 y = K.transposeActOn alpha x 0 y' ↔ ¬K.Buffered true ∨ K.rows ≠ 0 ∧ K.writer = .scalar ∨
        ∀ p < K.cols, K.readOver true alpha x p (coord y p) = K.readOver true alpha x p (coord y' p)) :=
  ⟨fun _ _ _ hx hy hy' => checkedAction_zero_eq_iff hzero hfits hx hy hy',
    fun _ _ _ hx hy hy' => checkedAction_zero_eq_iff hzero hfits hx hy hy'⟩

/-- A product whose leftmost factor is a multiple of the identity. -/
def layered : LinearMap Float :=
  kron (kron (ofScalar 2 3) (ofEntries 1 2 fun _ j => if j = 0 then 1 else 2)) (ofDiagonal #[4, 5])

theorem layered_overwrites :
    layered.actOn 1 #[1, 2, 3, 4, 5, 6, 7, 8] 0 #[0 / 0, 1 / 0, 1, 2] =
      layered.actOn 1 #[1, 2, 3, 4, 5, 6, 7, 8] 0 #[0, 0, 0, 0] ∧
    layered.transposeActOn 1 #[1, 2, 3, 4] 0 #[0 / 0, 1 / 0, 1, 2, 3, 4, 5, 6] =
      layered.transposeActOn 1 #[1, 2, 3, 4] 0 #[0, 0, 0, 0, 0, 0, 0, 0] := by
  have hzero : ((0 : Float) == 0) = true := by decide +kernel
  have hruns := actions_overwrite_iff (K := layered) hzero (by decide +kernel) 1
  exact ⟨(hruns.1 _ _ _ rfl rfl rfl).mpr (.inr (.inl ⟨by decide, rfl⟩)),
    (hruns.2 _ _ _ rfl rfl rfl).mpr (.inr (.inl ⟨by decide, rfl⟩))⟩

/-- A dense map of one element reads what is in `y`: a result that is not a number stays one. -/
theorem not_forall_overwrites : ¬∀ (K : LinearMap Float) (alpha : Float) (x y y' : Array Float), K.Fits →
    x.size = K.cols → y.size = K.rows → y'.size = K.rows → K.actOn alpha x 0 y = K.actOn alpha x 0 y' := by
  intro h
  have hruns := h (ofEntries 1 1 fun _ _ => 1) 1 #[1] #[1] #[0 / 0] (by decide) rfl rfl rfl
  have hresults : (ofEntries 1 1 fun _ _ => 1).action false 1 #[1] (0 : Float) #[1] =
      (ofEntries 1 1 fun _ _ => 1).action false 1 #[1] 0 #[0 / 0] := by
    injection hruns
  have hnan := congrArg (fun z => (coord z 0).isNaN) hresults
  exact absurd hnan (by decide +kernel)

end BlockElimination.LinearMap
