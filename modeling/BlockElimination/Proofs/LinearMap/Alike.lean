import BlockElimination.Proofs.Kernel.LowerTriangle
import BlockElimination.Proofs.LinearMap.Arithmetic
import BlockElimination.Proofs.Mirrors

/-!
# Maps with the same contents

Dense maps of one size with the same entries cannot be told apart, whether their arrays are flipped or not: every
operation reads the entries in the same order. The same is true of maps that are made of such parts alike, in any
arithmetic and also where an operation faults.
-/
namespace BlockElimination

section Alike
variable {F : Type} [Arith F]

namespace Dense

omit [Arith F] in
theorem pos_iff (d : Dense F) : (0 < d.rows ∧ 0 < d.cols) ↔ 0 < d.height ∧ 0 < d.width := by
  cases hflip : d.flipped <;> simp [height, width, hflip, and_comm]

/-- The entries of a product of factors that fit. -/
theorem product_eq_tabulate {a b : Dense F} (hfit : a.width = b.height) (c : Array F) :
    a.product b c = tabulate (a.height * b.width) fun p =>
      1 * ascendingSum a.width (fun l => a.entry (p % a.height) l * b.entry l (p / a.height)) + 0 * coord c p := by
  have hrows : Kernel.storedRows b.flipped a.width b.width = b.rows := by rw [hfit, LinearMap.storedRows_eq_rows]
  rw [product, Kernel.matrixProduct, LinearMap.storedRows_eq_rows, hrows]
  rfl

theorem entry_scale (alpha : F) (d : Dense F) {i j : ℕ} (hi : i < d.height) (hj : j < d.width) :
    (d.scale alpha).entry i j = alpha * d.entry i j := by
  have hsize := d.size_array
  cases hflip : d.flipped with
  | false =>
    simp only [height, width, hflip, Bool.false_eq_true, if_false] at hi hj
    have hp : j * d.rows + i < d.array.value.size := hsize ▸ Kernel.columnMajor_lt hi hj
    simp [entry, scale, Kernel.storedEntry, Kernel.scale, hflip, coord, hp]
  | true =>
    simp only [height, width, hflip, if_true] at hi hj
    have hp : i * d.rows + j < d.array.value.size := hsize ▸ Kernel.columnMajor_lt hj hi
    simp [entry, scale, Kernel.storedEntry, Kernel.scale, hflip, coord, hp]

/-- The maps have one size and the same entries. -/
structure Alike (d e : Dense F) : Prop where
  height : d.height = e.height
  width : d.width = e.width
  entry : ∀ i < d.height, ∀ j < d.width, d.entry i j = e.entry i j

namespace Alike
variable {d e : Dense F}

theorem refl (d : Dense F) : d.Alike d := ⟨rfl, rfl, fun _ _ _ _ => rfl⟩

theorem transpose (h : d.Alike e) : d.transpose.Alike e.transpose where
  height := by simpa using h.width
  width := by simpa using h.height
  entry i hi j hj := by
    rw [height_transpose] at hi
    rw [width_transpose] at hj
    rw [entry_transpose, entry_transpose, h.entry j hj i hi]

theorem scale (h : d.Alike e) (alpha : F) : (d.scale alpha).Alike (e.scale alpha) where
  height := h.height
  width := h.width
  entry i hi j hj := by
    rw [entry_scale alpha d hi hj, entry_scale alpha e (h.height ▸ hi) (h.width ▸ hj), h.entry i hi j hj]

theorem takes_iff (h : d.Alike e) (x y : ℕ) : d.Takes false x y ↔ e.Takes false x y := by
  have hd := pos_iff d
  have he := pos_iff e
  simp only [Dense.Takes, Bool.false_eq_true, if_false, h.height, h.width] at *
  omega

theorem action_eq (h : d.Alike e) {x y : Array F} (hxy : d.Takes false x.size y.size) (alpha beta : F) :
    d.action false alpha x beta y = e.action false alpha x beta y := by
  have hd := pos_iff d
  have he := pos_iff e
  rw [← h.height, ← h.width] at he
  by_cases hpos : 0 < d.height ∧ 0 < d.width
  · have hx : x.size = d.width ∧ y.size = d.height := by
      simp only [Dense.Takes, Bool.false_eq_true, if_false] at hxy
      omega
    rw [Dense.action, Dense.action, if_pos (hd.mpr hpos), if_pos (he.mpr hpos)]
    refine tabulate_congr fun r hr => ?_
    have hsum : ascendingSum x.size (fun c => d.entry r c * coord x c) =
        ascendingSum x.size fun c => e.entry r c * coord x c :=
      ascendingSum_congr fun c hc => by rw [h.entry r (hx.2 ▸ hr) c (hx.1 ▸ hc)]
    simp only [Bool.false_xor]
    exact congrArg (alpha * · + beta * coord y r) hsum
  · rw [Dense.action, Dense.action, if_neg fun hr => hpos (hd.mp hr), if_neg fun hr => hpos (he.mp hr)]

theorem actOn_eq (h : d.Alike e) (alpha : F) (x : Array F) (beta : F) (y : Array F) :
    (LinearMap.dense d).actOn alpha x beta y = (LinearMap.dense e).actOn alpha x beta y := by
  rw [LinearMap.actOn, LinearMap.actOn, LinearMap.checkedAction, LinearMap.checkedAction, Kernel.requireLengths_bind,
    Kernel.requireLengths_bind]
  by_cases htakes : d.Takes false x.size y.size
  · rw [if_pos htakes, if_pos ((h.takes_iff _ _).mp htakes)]
    exact congrArg pure (h.action_eq htakes alpha beta)
  · rw [if_neg htakes, if_neg fun he => htakes ((h.takes_iff _ _).mpr he)]

theorem transposeActOn_eq (h : d.Alike e) (alpha : F) (x : Array F) (beta : F) (y : Array F) :
    (LinearMap.dense d).transposeActOn alpha x beta y = (LinearMap.dense e).transposeActOn alpha x beta y := by
  rw [LinearMap.transposeActOn, LinearMap.transposeActOn, LinearMap.checkedAction_true, LinearMap.checkedAction_true]
  exact h.transpose.actOn_eq alpha x beta y

variable {d' e' : Dense F}

theorem product_eq (h : d.Alike e) (h' : d'.Alike e') (hfit : d.width = d'.height) (c : Array F) :
    d.product d' c = e.product e' c := by
  have hfit' : e.width = e'.height := by rw [← h.width, hfit, h'.height]
  rw [product_eq_tabulate hfit, product_eq_tabulate hfit', ← h.height, ← h.width, ← h'.width]
  refine tabulate_congr fun p hp => ?_
  have hrow : p % d.height < d.height := Nat.mod_lt p (Nat.pos_of_mul_pos_right (Nat.zero_lt_of_lt hp))
  have hcol : p / d.height < d'.width := Nat.div_lt_of_lt_mul hp
  have hsum : ascendingSum d.width (fun l => d.entry (p % d.height) l * d'.entry l (p / d.height)) =
      ascendingSum d.width fun l => e.entry (p % d.height) l * e'.entry l (p / d.height) :=
    ascendingSum_congr fun l hl => by rw [h.entry _ hrow l hl, h'.entry l (hfit ▸ hl) _ hcol]
  rw [hsum]

theorem mulInto_eq (h : d.Alike e) (h' : d'.Alike e') (c : Array F) : d.mulInto d' c = e.mulInto e' c := by
  rw [Dense.mulInto, Dense.mulInto, Kernel.requireLengths_bind, Kernel.requireLengths_bind, ← h.width, ← h.height,
    ← h'.height, ← h'.width]
  by_cases hfit : d.width = d'.height
  · have hproduct := h.product_eq h' hfit c
    simp only [Dense.product, ← h.height, ← h.width, ← h'.width] at hproduct
    simp only [if_pos hfit, Kernel.multiplyGeneral, LinearMap.size_array_eq, ← h.height, ← h.width, ← h'.height,
      ← h'.width, hproduct]
  · rw [if_neg hfit, if_neg hfit]

end Alike

end Dense

namespace LinearMap

/-- The maps are made of the same numbers at the same places: their dense parts have the same entries, whichever way
round these are stored, and their diagonals and their scalars are equal. -/
inductive Alike : LinearMap F → LinearMap F → Prop
  | dense {d e : Dense F} : d.Alike e → Alike (dense d) (dense e)
  | kron {a a' b b' : LinearMap F} : Alike a a' → Alike b b' → Alike (kron a b) (kron a' b')
  | diag {u v : Stored (Array F)} : u.value = v.value → Alike (diag u) (diag v)
  | scalar (n : ℕ) {s t : Stored F} : s.value = t.value → Alike (scalar n s) (scalar n t)

namespace Alike
variable {K K' L L' : LinearMap F}

theorem refl (K : LinearMap F) : K.Alike K := by
  induction K with
  | dense d => exact .dense (.refl d)
  | kron a b iha ihb => exact .kron iha ihb
  | diag d => exact .diag rfl
  | scalar n alpha => exact .scalar n rfl

theorem kind_eq (h : K.Alike K') : K'.kind = K.kind := by cases h <;> rfl

theorem rows_eq (h : K.Alike K') : K'.rows = K.rows := by
  induction h with
  | dense h => exact h.height.symm
  | kron _ _ iha ihb => rw [rows, rows, iha, ihb]
  | diag h => rw [rows, rows, h]
  | scalar => rfl

theorem cols_eq (h : K.Alike K') : K'.cols = K.cols := by
  induction h with
  | dense h => exact h.width.symm
  | kron _ _ iha ihb => rw [cols, cols, iha, ihb]
  | diag h => rw [cols, cols, h]
  | scalar => rfl

theorem outer_eq (h : K.Alike K') (flip : Bool) : K'.outer flip = K.outer flip := by
  rw [outer, outer, h.rows_eq, h.cols_eq]

theorem inner_eq (h : K.Alike K') (flip : Bool) : K'.inner flip = K.inner flip := by
  rw [inner, inner, h.rows_eq, h.cols_eq]

theorem fits_iff (h : K.Alike K') : K'.Fits ↔ K.Fits := by
  induction h with
  | dense h => rw [Fits, Fits, h.height, h.width]
  | kron ha hb iha ihb => rw [fits_kron, fits_kron, iha, ihb, ha.rows_eq, hb.rows_eq, ha.cols_eq, hb.cols_eq]
  | diag h => rw [Fits, Fits, h]
  | scalar => rfl

theorem size_eq (h : K.Alike K') : K'.size = K.size := by
  simp only [size, h.fits_iff, h.rows_eq, h.cols_eq]

theorem writable_iff (h : K.Alike K') : K'.Writable ↔ K.Writable := by
  induction h with
  | dense h => rfl
  | kron ha hb iha ihb =>
    rw [Writable, Writable, (Alike.kron ha hb).fits_iff, iha, ihb, ha.rows_eq, hb.rows_eq, ha.cols_eq, hb.cols_eq]
  | diag h => rw [Writable, Writable, h]
  | scalar => rfl

theorem entry_eq (h : K.Alike K') {i j : ℕ} (hi : i < K.rows) (hj : j < K.cols) : K'.entry i j = K.entry i j := by
  induction h generalizing i j with
  | dense h => exact (h.entry i hi j hj).symm
  | @kron a a' b b' ha hb iha ihb =>
    have hrow : i % b.rows < b.rows := Nat.mod_lt i (Nat.pos_of_ne_zero fun h => by simp [rows, h] at hi)
    have hcol : j % b.cols < b.cols := Nat.mod_lt j (Nat.pos_of_ne_zero fun h => by simp [cols, h] at hj)
    have hrow' : i / b.rows < a.rows := Nat.div_lt_of_lt_mul (hi.trans_eq (Nat.mul_comm a.rows b.rows))
    have hcol' : j / b.cols < a.cols := Nat.div_lt_of_lt_mul (hj.trans_eq (Nat.mul_comm a.cols b.cols))
    rw [entry, entry, hb.rows_eq, hb.cols_eq, iha hrow' hcol', ihb hrow hcol]
  | diag h => rw [entry, entry, h]
  | scalar n h => rw [entry, entry, h]

theorem entries_eq (h : K.Alike K') : K'.entries = K.entries := by
  rw [entries, entries, h.rows_eq, h.cols_eq]
  refine tabulate_congr fun p hp => ?_
  have hpos : 0 < K.rows := Nat.pos_of_mul_pos_right (Nat.zero_lt_of_lt hp)
  exact h.entry_eq (Nat.mod_lt p hpos) (Nat.div_lt_of_lt_mul hp)

theorem toColumnMajor_eq (h : K.Alike K') : K'.toColumnMajor = K.toColumnMajor := by
  simp only [toColumnMajor, h.writable_iff, h.entries_eq]

theorem transpose (h : K.Alike K') : K.transpose.Alike K'.transpose := by
  induction h with
  | dense h => exact .dense h.transpose
  | kron _ _ iha ihb => exact .kron iha ihb
  | diag h => exact .diag h
  | scalar n h => exact .scalar n h

theorem scale (h : K.Alike K') (alpha : F) : (K.scale alpha).Alike (K'.scale alpha) := by
  induction h with
  | dense h => exact .dense (h.scale alpha)
  | kron _ hb iha _ => exact .kron iha hb
  | diag h => exact .diag (congrArg (Kernel.scale alpha) h)
  | scalar n h => exact .scalar n (congrArg (alpha * ·) h)

theorem checkedAction_eq (h : K.Alike K') (flip : Bool) (alpha : F) (x : Array F) (beta : F) (y : Array F) :
    K'.checkedAction flip alpha x beta y = K.checkedAction flip alpha x beta y := by
  induction h generalizing alpha x beta y with
  | dense h =>
    cases flip with
    | false => exact (h.actOn_eq alpha x beta y).symm
    | true => exact (h.transposeActOn_eq alpha x beta y).symm
  | kron ha hb iha ihb =>
    simp only [checkedAction, (Alike.kron ha hb).size_eq, iha, ihb, ha.outer_eq, hb.outer_eq, ha.inner_eq, hb.inner_eq]
  | diag h => rw [checkedAction, checkedAction, h]
  | scalar n h => rw [checkedAction, checkedAction, h]

theorem denseProduct_eq (h : K.Alike K') (h' : L.Alike L') (hfit : K.cols = L.rows) :
    K'.denseProduct L' = K.denseProduct L := by
  -- A left factor that is not dense acts on the columns of the right one, and a right one transposed on the rows.
  have hcolumns : ((List.range L.cols).mapM fun j =>
      K'.checkedAction false 1 (tabulate K.cols fun l => L'.entry l j) 0 (Kernel.zeros K.rows)) =
        (List.range L.cols).mapM fun j =>
          K.checkedAction false 1 (tabulate K.cols fun l => L.entry l j) 0 (Kernel.zeros K.rows) := by
    refine mapM_congr fun j hj => ?_
    rw [h.checkedAction_eq, tabulate_congr fun l hl => h'.entry_eq (hfit ▸ hl) (List.mem_range.mp hj)]
  have hrows : ((List.range K.rows).mapM fun i =>
      L'.checkedAction true 1 (tabulate K.cols fun l => K'.entry i l) 0 (Kernel.zeros L.cols)) =
        (List.range K.rows).mapM fun i =>
          L.checkedAction true 1 (tabulate K.cols fun l => K.entry i l) 0 (Kernel.zeros L.cols) := by
    refine mapM_congr fun i hi => ?_
    rw [h'.checkedAction_eq, tabulate_congr fun l hl => h.entry_eq (List.mem_range.mp hi) hl]
  have hK := h.toColumnMajor_eq
  have hL := h'.toColumnMajor_eq
  unfold denseProduct actOn transposeActOn
  simp only [h.rows_eq, h.cols_eq, h'.cols_eq, hcolumns, hrows, hK, hL]
  refine bind_congr fun _ => ?_
  split
  · rfl
  · cases h with
    | dense hd =>
      cases h' with
      | dense he => simp only [hd.mulInto_eq he]
      | _ => rfl
    | _ => cases h' <;> rfl

theorem parallel_expectKind {e e' : Except Fault (LinearMap F)} (h : Parallel Alike e e') (kinds : List Kind) :
    Parallel Alike (e >>= expectKind kinds) (e' >>= expectKind kinds) := by
  refine h.bind fun P P' hP => ?_
  unfold expectKind
  rw [hP.kind_eq]
  split
  · exact hP
  · rfl

/-- A product, given those of the factors where two Kronecker products meet. -/
theorem parallel_mul_of_factors (h : K.Alike K') (h' : L.Alike L')
    (factors : ∀ a b c d a' b' c' d', K = .kron a b → K' = .kron a' b' → L = .kron c d → L' = .kron c' d' →
      Parallel Alike (a.mul c) (a'.mul c') ∧ Parallel Alike (b.mul d) (b'.mul d')) :
    Parallel Alike (K.mul L) (K'.mul L') := by
  rw [mul.eq_def, mul.eq_def K', h.size_eq, h'.size_eq, h.kind_eq, h'.kind_eq]
  refine .bind_same fun s hs => .bind_same fun t ht => ?_
  obtain ⟨-, rfl⟩ := size_eq_ok_iff.mp hs
  obtain ⟨-, rfl⟩ := size_eq_ok_iff.mp ht
  dsimp only
  split
  · rfl
  · have hdense := fun kinds => parallel_expectKind (.of_eq (h.denseProduct_eq h' (by_contra ‹_›)).symm refl) kinds
    have hscale : ∀ {alpha beta : F} {P P' : LinearMap F}, alpha = beta → P.Alike P' → ∀ kinds,
        Parallel Alike (pure (P.scale alpha) >>= expectKind kinds) (pure (P'.scale beta) >>= expectKind kinds) :=
      fun heq hP kinds => parallel_expectKind (heq ▸ hP.scale _) kinds
    have hK := h
    have hL := h'
    cases h with
    | scalar n hvalue =>
      cases h' <;> exact hscale hvalue hL _
    | dense hd =>
      cases h' with
      | scalar n hvalue => exact hscale hvalue hK _
      | _ => exact hdense _
    | diag hu =>
      cases h' with
      | scalar n hvalue => exact hscale hvalue hK _
      | diag hv =>
        dsimp only
        rw [hu, hv]
        exact .of_eq rfl refl
      | _ => exact hdense _
    | @kron a a' b b' ha hb =>
      cases h' with
      | scalar n hvalue => exact hscale hvalue hK _
      | @kron c c' d d' hc hd =>
        obtain ⟨hac, hbd⟩ := factors _ _ _ _ _ _ _ _ rfl rfl rfl rfl
        have hchains : a'.Chains b' c' d' ↔ a.Chains b c d := by
          rw [Chains, Chains, ha.cols_eq, hb.cols_eq, hc.rows_eq, hd.rows_eq]
        dsimp only
        by_cases hfit : a.Chains b c d
        · rw [if_pos hfit, if_pos (hchains.mpr hfit)]
          refine hac.bind fun P P' hP => hbd.bind fun Q Q' hQ => ?_
          have hkron : Parallel Alike (pure (.kron P Q)) (pure (.kron P' Q')) := .kron hP hQ
          exact parallel_expectKind hkron _
        · rw [if_neg hfit, if_neg (mt hchains.mp hfit)]
          exact hdense _
      | _ => exact hdense _

theorem parallel_mul (h : K.Alike K') (h' : L.Alike L') : Parallel Alike (K.mul L) (K'.mul L') := by
  induction h generalizing L L' with
  | kron ha hb iha ihb =>
    refine parallel_mul_of_factors (.kron ha hb) h' ?_
    rintro _ _ c d _ _ c' d' ⟨⟩ ⟨⟩ rfl rfl
    cases h' with
    | kron hc hd => exact ⟨iha hc, ihb hd⟩
  | dense h => exact parallel_mul_of_factors (.dense h) h' fun _ _ _ _ _ _ _ _ hK => nomatch hK
  | diag h => exact parallel_mul_of_factors (.diag h) h' fun _ _ _ _ _ _ _ _ hK => nomatch hK
  | scalar n h => exact parallel_mul_of_factors (.scalar n h) h' fun _ _ _ _ _ _ _ _ hK => nomatch hK

/-- A sum is computed anew, so that nothing is left of how the summands are stored. -/
theorem add_eq (h : K.Alike K') (h' : L.Alike L') : K'.add L' = K.add L := by
  rw [add.eq_def, add.eq_def K, h.size_eq, h'.size_eq, h.kind_eq, h'.kind_eq, h.rows_eq, h.cols_eq,
    h.toColumnMajor_eq, h'.toColumnMajor_eq]
  refine bind_congr fun s => bind_congr fun t => ?_
  cases h with
  | scalar n hs => cases h' <;> first | rfl | simp only [*]
  | diag hu => cases h' <;> first | rfl | simp only [*]
  | _ => cases h' <;> rfl

end Alike

end LinearMap

end Alike

end BlockElimination
