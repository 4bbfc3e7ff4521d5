import BlockElimination.LinearMap.Arithmetic
import BlockElimination.LinearMap.Inverse
import BlockElimination.Proofs.Yields

/-!
# Sizes of linear maps

Operands whose sizes fit are refused for no other reason than a size that leaves its range, whatever the arithmetic is.
For each operation one lemma says which values it may have, and what is shown of a result is shown of these.
-/
namespace BlockElimination.LinearMap

variable {F : Type}

def Sized (K : LinearMap F) (m n : ℕ) : Prop := K.rows = m ∧ K.cols = n

theorem Sized.transpose {K : LinearMap F} {m n : ℕ} (h : K.Sized m n) : K.transpose.Sized n m :=
  ⟨K.rows_transpose.trans h.2, K.cols_transpose.trans h.1⟩

theorem yields_size {K : LinearMap F} {m n : ℕ} (hK : K.Sized m n) : Yields K.size (· = (m, n)) := by
  obtain ⟨rfl, rfl⟩ := hK
  unfold size
  split <;> simp

theorem yields_rowCount {K : LinearMap F} {m n : ℕ} (hK : K.Sized m n) : Yields K.rowCount (· = m) :=
  Yields.map ((yields_size hK).mono fun _ hs => hs ▸ rfl)

theorem yields_colCount {K : LinearMap F} {m n : ℕ} (hK : K.Sized m n) : Yields K.colCount (· = n) :=
  Yields.map ((yields_size hK).mono fun _ hs => hs ▸ rfl)

theorem rowCount_transpose (K : LinearMap F) : K.transpose.rowCount = K.colCount := by
  by_cases h : K.Fits
  · rw [rowCount, colCount, size_of_fits h, size_of_fits (fits_transpose.mpr h), rows_transpose]
    rfl
  · rw [rowCount, colCount, size, size, if_neg h, if_neg (mt fits_transpose.mp h)]
    rfl

theorem sized_ofColumnMajor (m n : ℕ) (f : ℕ → F) : (dense (.ofColumnMajor m n f)).Sized m n := ⟨rfl, rfl⟩

theorem sized_ofEntries (m n : ℕ) (f : ℕ → ℕ → F) : (ofEntries m n f).Sized m n := ⟨rfl, rfl⟩

theorem sized_ofDiagonal {u : Array F} {n : ℕ} (hu : u.size = n) : (ofDiagonal u).Sized n n := ⟨hu, hu⟩

theorem size_array_eq (d : Dense F) : d.array.value.size = d.height * d.width := by
  have hsize := d.size_array
  cases hflip : d.flipped <;> simp [Dense.height, Dense.width, hflip, hsize, Nat.mul_comm]

theorem yields_ofArray [Zero F] {m n : ℕ} {a : Array F} (ha : a.size = m * n) :
    Yields (ofArray m n a) (· = dense (.ofColumnMajor m n (coord a))) := by
  have htabulate : a = tabulate (m * n) (coord a) := ha ▸ eq_tabulate_coord a
  unfold ofArray Dense.ofArray
  split
  case isTrue =>
    change dense _ = dense _
    congr
  case isFalse => rfl

theorem ofArray_tabulate {m n : ℕ} (entry : ℕ → ℕ → F) (hsize : m * n < Size.bound) :
    ofArray m n (tabulate (m * n) fun p => entry (p % m) (p / m)) = .ok (ofEntries m n entry) := by
  rw [ofArray, Dense.ofArray, if_pos hsize, dif_pos (size_tabulate _ _)]
  rfl

theorem ofColumnMajor_eq_ofEntries {m n : ℕ} {f : ℕ → F} (entry : ℕ → ℕ → F)
    (h : ∀ p < m * n, f p = entry (p % m) (p / m)) : dense (.ofColumnMajor m n f) = ofEntries m n entry := by
  unfold ofEntries Dense.ofEntries Dense.ofColumnMajor
  simp only [tabulate_congr h]

/-- An assertion on the kind that holds of every value changes nothing. -/
theorem yields_expectKind {kinds : List Kind} {e : Except Fault (LinearMap F)} {p : LinearMap F → Prop}
    (hkind : Ensures e (·.kind ∈ kinds)) (h : Yields e p) : Yields (e >>= expectKind kinds) p := by
  rw [bind_expectKind hkind]
  exact h

section Action
variable [Arith F] {K : LinearMap F} {m n : ℕ} {flip : Bool} {alpha beta : F} {x y : Array F}

theorem Sized.scale (h : K.Sized m n) (alpha : F) : (K.scale alpha).Sized m n :=
  ⟨(K.rows_scale alpha).trans h.1, (K.cols_scale alpha).trans h.2⟩

theorem yields_toColumnMajor (K : LinearMap F) : Yields K.toColumnMajor (· = K.entries) := by
  unfold toColumnMajor
  split <;> simp

omit [Arith F] in
theorem inner_kron (flip : Bool) (a b : LinearMap F) : (kron a b).inner flip = a.inner flip * b.inner flip := by
  cases flip <;> rfl

omit [Arith F] in
theorem outer_kron (flip : Bool) (a b : LinearMap F) : (kron a b).outer flip = a.outer flip * b.outer flip := by
  cases flip <;> rfl

/-- The buffers that the action of a product needs can be allocated. -/
def Buffered (flip : Bool) : LinearMap F → Prop
  | kron a b =>
    (a.outer flip = 0 ∨ a.inner flip = 0 ∨ b.outer flip = 0 ∨ b.inner flip = 0) ∨
      b.outer flip * a.inner flip < Size.capacity ∧ b.Buffered flip ∧ a.Buffered flip
  | _ => True

instance decidableBuffered (flip : Bool) : (K : LinearMap F) → Decidable (K.Buffered flip)
  | dense _ | diag _ | scalar _ _ => inferInstanceAs (Decidable True)
  | kron a b =>
    have := decidableBuffered flip a
    have := decidableBuffered flip b
    inferInstanceAs (Decidable
      ((a.outer flip = 0 ∨ a.inner flip = 0 ∨ b.outer flip = 0 ∨ b.inner flip = 0) ∨
        b.outer flip * a.inner flip < Size.capacity ∧ b.Buffered flip ∧ a.Buffered flip))

omit [Arith F] in
theorem toArray_map_range {α : Type} (n : ℕ) (f : ℕ → α) : ((List.range n).map f).toArray = tabulate n f := by
  apply Array.ext
  · simp
  · intro i _ _
    simp

theorem checkedAction_kron {a b : LinearMap F} (hfits : (kron a b).Fits) (hx : x.size = (kron a b).inner flip)
    (hy : y.size = (kron a b).outer flip)
    (hzero : ¬(a.outer flip = 0 ∨ a.inner flip = 0 ∨ b.outer flip = 0 ∨ b.inner flip = 0)) :
    (kron a b).checkedAction flip alpha x beta y = Size.storable (b.outer flip * a.inner flip) >>= fun _ =>
      ((List.range (a.inner flip)).mapM fun c => b.checkedAction flip 1
        (tabulate (b.inner flip) fun q => coord x (c * b.inner flip + q)) 0 (Kernel.zeros (b.outer flip))) >>= fun t =>
      ((List.range (b.outer flip)).mapM fun r => a.checkedAction flip alpha
        (tabulate (a.inner flip) fun c => coord (t.toArray.getD c #[]) r) beta
        (tabulate (a.outer flip) fun c => coord y (c * b.outer flip + r))) >>= fun lines =>
      pure (tabulate (a.outer flip * b.outer flip) fun p =>
        coord (lines.toArray.getD (p % b.outer flip) #[]) (p / b.outer flip)) := by
  rw [checkedAction, size_bind, if_pos hfits, Kernel.requireLengths_bind, if_pos (hx.trans (inner_kron flip a b)),
    Kernel.requireLengths_bind, if_pos (hy.trans (outer_kron flip a b))]
  exact if_neg hzero

/-- If either factor computes on operands of the right lengths and is only refused its buffers, then so is the product. -/
theorem checkedAction_kron_eq {a b : LinearMap F} (hfits : (kron a b).Fits) (hx : x.size = (kron a b).inner flip)
    (hy : y.size = (kron a b).outer flip)
    (ha : ∀ {x y : Array F}, x.size = a.inner flip → y.size = a.outer flip → a.checkedAction flip alpha x beta y =
      if a.Buffered flip then .ok (a.action flip alpha x beta y) else .error .overflow)
    (hb : ∀ {x y : Array F}, x.size = b.inner flip → y.size = b.outer flip → b.checkedAction flip 1 x 0 y =
      if b.Buffered flip then .ok (b.action flip 1 x 0 y) else .error .overflow) :
    (kron a b).checkedAction flip alpha x beta y =
      if (kron a b).Buffered flip then .ok ((kron a b).action flip alpha x beta y) else .error .overflow := by
  by_cases hzero : a.outer flip = 0 ∨ a.inner flip = 0 ∨ b.outer flip = 0 ∨ b.inner flip = 0
  · rw [if_pos (show (kron a b).Buffered flip from .inl hzero), checkedAction, size_bind, if_pos hfits,
      Kernel.requireLengths_bind, if_pos (hx.trans (inner_kron flip a b)), Kernel.requireLengths_bind,
      if_pos (hy.trans (outer_kron flip a b)), action]
    dsimp only
    rw [if_pos hzero, if_pos hzero]
    rfl
  · have hbuffered : (kron a b).Buffered flip ↔
        b.outer flip * a.inner flip < Size.capacity ∧ b.Buffered flip ∧ a.Buffered flip := or_iff_right hzero
    -- Every column and every row is cut to the length that its factor asks for.
    have hcolumn (c : ℕ) := hb (size_tabulate (b.inner flip) fun q => coord x (c * b.inner flip + q))
      (Array.size_replicate (n := b.outer flip) (v := (0 : F)))
    have hline (t : Array (Array F)) (r : ℕ) := ha (size_tabulate (a.inner flip) fun c => coord (t.getD c #[]) r)
      (size_tabulate (a.outer flip) fun c => coord y (c * b.outer flip + r))
    have hna : List.range (a.inner flip) ≠ [] := by simpa using fun h => hzero (.inr (.inl h))
    have hmb : List.range (b.outer flip) ≠ [] := by simpa using fun h => hzero (.inr (.inr (.inl h)))
    rw [checkedAction_kron hfits hx hy hzero, if_congr hbuffered rfl rfl, action, if_neg hzero, Size.storable]
    simp only [Kernel.zeros, hcolumn, hline]
    by_cases hroom : b.outer flip * a.inner flip < Size.capacity
    · by_cases hbb : b.Buffered flip
      · by_cases hab : a.Buffered flip
        · simp only [hroom, hbb, hab, if_true, and_self, mapM_eq_ok fun _ _ => rfl, ok_bind, toArray_map_range]
          rfl
        · simp only [hroom, hbb, hab, if_true, if_false, and_false, mapM_eq_ok fun _ _ => rfl, ok_bind,
            mapM_eq_error hmb fun _ _ => rfl, error_bind]
      · simp only [hroom, hbb, if_true, if_false, false_and, and_false, mapM_eq_error hna fun _ _ => rfl, error_bind,
          ok_bind]
    · simp only [hroom, if_false, false_and, error_bind]

/-- Of operands of the right lengths no check in a map refuses a part: only its buffers may be too large. -/
theorem checkedAction_eq (hfits : K.kind = .kron → K.Fits) (hx : x.size = K.inner flip) (hy : y.size = K.outer flip) :
    K.checkedAction flip alpha x beta y =
      if K.Buffered flip then .ok (K.action flip alpha x beta y) else .error .overflow := by
  induction K generalizing alpha x beta y with
  | dense d =>
    rw [if_pos (show (dense d).Buffered flip from trivial), checkedAction, Kernel.requireLengths_bind,
      if_pos (.inr (.inr ⟨hx, hy⟩))]
    rfl
  | kron a b iha ihb =>
    obtain ⟨ha, hb, -, -⟩ := hfits rfl
    exact checkedAction_kron_eq (hfits rfl) hx hy (iha fun _ => ha) (ihb fun _ => hb)
  | diag d =>
    have hd : d.value.size = x.size ∧ d.value.size = y.size := by cases flip <;> exact ⟨hx.symm, hy.symm⟩
    rw [if_pos (show (diag d).Buffered flip from trivial), checkedAction, Kernel.transformDiagonal,
      Kernel.requireLengths_bind, if_pos hd]
    rfl
  | scalar n s =>
    have hn : x.size = n := by cases flip <;> exact hx
    have hxy : x.size = y.size := by cases flip <;> exact hx.trans hy.symm
    rw [if_pos (show (scalar n s).Buffered flip from trivial), checkedAction, action, Kernel.requireLengths_bind,
      if_pos hn]
    split
    · rw [Kernel.copy, Kernel.requireLengths_bind, if_pos hxy]
      rfl
    · rw [Kernel.add, Kernel.requireLengths_bind, if_pos (by simpa using hxy)]
      rfl

theorem yields_checkedAction (hx : x.size = K.inner flip) (hy : y.size = K.outer flip) :
    Yields (K.checkedAction flip alpha x beta y) (· = K.action flip alpha x beta y) := by
  by_cases hfits : K.kind = .kron → K.Fits
  · rw [checkedAction_eq hfits hx hy]
    split <;> simp
  · obtain ⟨hkron, hfits⟩ := Classical.not_imp.mp hfits
    cases K with
    | kron a b =>
      rw [checkedAction, size_bind, if_neg hfits]
      exact rfl
    | _ => cases hkron

theorem size_action (hx : x.size = K.cols) (hy : y.size = K.rows) :
    (K.action false alpha x beta y).size = K.rows := by
  cases K with
  | dense d =>
    simp only [action, Dense.action]
    split <;> simpa using hy
  | kron a b =>
    simp only [action]
    split
    · simpa using hy
    · simp [outer, rows]
  | diag d => simpa [action] using hy
  | scalar n s =>
    simp only [action]
    split
    · simpa [cols, rows] using hx
    · simpa using hy

/-- The action on vectors of the right lengths is only refused where a size is out of range. -/
theorem Sized.yields_actOn (hK : K.Sized m n) (hx : x.size = n) (hy : y.size = m) :
    Yields (K.actOn alpha x beta y) fun z => z = K.action false alpha x beta y ∧ z.size = m := by
  obtain ⟨rfl, rfl⟩ := hK
  have hvalue : Yields (K.actOn alpha x beta y) (· = K.action false alpha x beta y) := yields_checkedAction hx hy
  exact hvalue.mono fun z hz => ⟨hz, (congrArg Array.size hz).trans (size_action hx hy)⟩

theorem apply_eq (hx : x.size = K.cols) : K.apply x =
    if K.Fits ∧ K.rows < Size.capacity ∧ K.Buffered false then .ok (K.action false 1 x 0 (Kernel.zeros K.rows))
    else .error .overflow := by
  by_cases hfits : K.Fits
  · have happly : K.apply x = Size.storable K.rows >>= fun _ => K.actOn 1 x 0 (Kernel.zeros K.rows) := by
      rw [apply, size_of_fits hfits]
      change (Kernel.requireLengths _ >>= fun _ => _) = _
      rw [Kernel.requireLengths_bind, if_pos hx]
    have hact : K.actOn 1 x 0 (Kernel.zeros K.rows) =
        if K.Buffered false then .ok (K.action false 1 x 0 (Kernel.zeros K.rows)) else .error .overflow :=
      checkedAction_eq (fun _ => hfits) hx Array.size_replicate
    rw [happly, hact, Size.storable]
    by_cases hrows : K.rows < Size.capacity
    · simp only [hfits, hrows, if_true, true_and, ok_bind]
    · simp only [hrows, if_false, false_and, and_false, error_bind]
  · rw [apply, size, if_neg hfits, if_neg fun h => hfits h.1]
    rfl

theorem apply_eq_ok (hfits : K.Fits) (hbuffered : K.Buffered false) (hrows : K.rows < Size.capacity)
    (hx : x.size = K.cols) : K.apply x = .ok (K.action false 1 x 0 (Kernel.zeros K.rows)) :=
  (apply_eq hx).trans (if_pos ⟨hfits, hrows, hbuffered⟩)

theorem Sized.yields_apply (hK : K.Sized m n) (hx : x.size = n) :
    Yields (K.apply x) fun z => z = K.action false 1 x 0 (Kernel.zeros m) ∧ z.size = m := by
  refine (yields_size hK).bind ?_
  rintro _ rfl
  simp only [Kernel.requireLengths_bind, if_pos hx]
  exact (yields_storable m).bind fun _ _ => hK.yields_actOn hx (by simp [Kernel.zeros])

end Action

section Arithmetic
variable [Arith F] {K L : LinearMap F} {m k n : ℕ} {p : LinearMap F → Prop}

theorem yields_mulInto {a b : Dense F} {c : Array F} (hfit : a.width = b.height)
    (hpos : 0 < a.height ∧ 0 < b.width ∧ 0 < a.width) (hc : c.size = a.height * b.width) :
    Yields (a.mulInto b c) (· = a.product b c) := by
  have ha := size_array_eq a
  have hb : b.array.value.size = a.width * b.width := hfit ▸ size_array_eq b
  unfold Dense.mulInto Kernel.multiplyGeneral
  rw [Kernel.requireLengths_bind, if_pos hfit, if_pos hpos]
  refine (yields_sizeMul _ _).bind ?_
  rintro _ rfl
  rw [Kernel.requireLengths_bind, if_pos ha]
  refine (yields_sizeMul _ _).bind ?_
  rintro _ rfl
  rw [Kernel.requireLengths_bind, if_pos hb]
  refine (yields_sizeMul _ _).bind ?_
  rintro _ rfl
  rw [Kernel.requireLengths_bind, if_pos hc, Yields.pure_iff]
  rfl

theorem yields_transposeGeneral {rows cols : ℕ} {a out : Array F} (ha : a.size = rows * cols)
    (hout : out.size = rows * cols) :
    Yields (Kernel.transposeGeneral rows cols a out) (· = Kernel.transposed rows cols a) := by
  unfold Kernel.transposeGeneral
  refine (yields_sizeMul _ _).bind ?_
  rintro _ rfl
  rw [Kernel.requireLengths_bind, if_pos ⟨ha, hout⟩, Yields.pure_iff]

/-- The actions on the operands of a table are those of a map that takes them all. -/
theorem yields_actions (n : ℕ) (flip : Bool) (operand : ℕ → Array F) (y : Array F)
    (hx : ∀ i, (operand i).size = K.inner flip) (hy : y.size = K.outer flip) :
    Yields ((List.range n).mapM fun i => K.checkedAction flip 1 (operand i) 0 y) fun columns =>
      columns.toArray = tabulate n fun i => K.action flip 1 (operand i) 0 y := by
  have hstep : ∀ i, Yields (K.checkedAction flip 1 (operand i) 0 y) (· = K.action flip 1 (operand i) 0 y) := fun i =>
    yields_checkedAction (hx i) hy
  have hmap := Yields.mapM (l := List.range n) _ fun i _ => hstep i
  exact hmap.mono fun columns hcolumns => hcolumns ▸ toArray_map_range n _

theorem ensures_kind_denseProduct (K L : LinearMap F) : Ensures (K.denseProduct L) (·.kind = .dense) := by
  unfold denseProduct
  refine Ensures.bind_any fun _ => ?_
  split
  · exact Ensures.pure_iff.mpr rfl
  · split
    · exact Ensures.bind_any fun _ => Ensures.map fun _ _ => rfl
    · exact Ensures.bind_any fun _ => Ensures.bind_any fun _ => Ensures.bind_any fun _ => Ensures.map fun _ _ => rfl
    · exact Ensures.bind_any fun _ => Ensures.bind_any fun _ => Ensures.map fun _ _ => rfl

/-- Which values a product has when it is written out. -/
theorem Sized.denseProduct_cases (hK : K.Sized m k) (hL : L.Sized k n)
    (empty : m = 0 ∨ n = 0 ∨ k = 0 → p (dense (.zeros m n)))
    (stored : ∀ a b, K = dense a → L = dense b →
      p (dense (.ofColumnMajor m n (coord (a.product b (Kernel.zeros (m * n)))))))
    (lines : p (ofEntries m n fun i j => coord ((tabulate m fun i =>
      L.action true 1 (tabulate k fun l => K.entry i l) 0 (Kernel.zeros n)).getD i #[]) j))
    (columns : p (ofEntries m n fun i j => coord ((tabulate n fun j =>
      K.action false 1 (tabulate k fun l => L.entry l j) 0 (Kernel.zeros m)).getD j #[]) i)) :
    Yields (K.denseProduct L) p := by
  unfold denseProduct
  simp only [hK.1, hK.2, hL.2]
  refine (yields_storable (m * n)).bind fun _ _ => ?_
  split
  case isTrue hzero => exact Yields.pure_iff.mpr (empty hzero)
  case isFalse =>
    split
    case h_1 a b =>
      obtain ⟨rfl, rfl⟩ : a.height = m ∧ a.width = k := hK
      obtain ⟨hk, rfl⟩ : b.height = a.width ∧ b.width = n := hL
      have hpos : 0 < a.height ∧ 0 < b.width ∧ 0 < a.width := by omega
      refine (yields_mulInto hk.symm hpos (by simp [Kernel.zeros])).bind ?_
      rintro _ rfl
      refine (yields_ofArray (by simp [Dense.product])).mono ?_
      rintro _ rfl
      exact stored a b rfl rfl
    case h_2 c d =>
      refine (yields_toColumnMajor K).bind fun _ _ => ?_
      have hlines := yields_actions (K := kron c d) m true (fun i => tabulate k fun l => K.entry i l) (Kernel.zeros n)
        (fun i => (size_tabulate k _).trans hL.1.symm) (Array.size_replicate.trans hL.2.symm)
      refine hlines.bind fun rows hrows => ?_
      have hout : (Kernel.zeros (m * n) : Array F).size = n * m := Array.size_replicate.trans (Nat.mul_comm m n)
      refine (yields_transposeGeneral (Kernel.size_joined n m _) hout).bind ?_
      rintro _ rfl
      refine (yields_ofArray ((Kernel.size_transposed n m _).trans (Nat.mul_comm n m))).mono ?_
      rintro _ rfl
      rw [ofColumnMajor_eq_ofEntries (fun i j => coord (rows.toArray.getD i #[]) j) fun p hp =>
        Kernel.coord_transposed_joined _ hp, hrows]
      exact lines
    case h_3 =>
      refine (yields_toColumnMajor L).bind fun _ _ => ?_
      have hcolumns := yields_actions (K := K) n false (fun j => tabulate k fun l => L.entry l j) (Kernel.zeros m)
        (fun j => (size_tabulate k _).trans hK.2.symm) (Array.size_replicate.trans hK.1.symm)
      refine hcolumns.bind fun stored hstored => (yields_ofArray (Kernel.size_joined m n _)).mono ?_
      rintro _ rfl
      rw [ofColumnMajor_eq_ofEntries (fun i j => coord (stored.toArray.getD j #[]) i) fun p hp =>
        Kernel.coord_joined _ hp, hstored]
      exact columns

/-- Two Kronecker products whose factors do not fit pairwise. -/
def Unchained (K L : LinearMap F) : Prop := ∃ a b c d, K = kron a b ∧ L = kron c d ∧ ¬Chains a b c d

/-- Which values a product has. No assertion on its kind fails, here or among the products of factors. -/
theorem Sized.mul_cases (hK : K.Sized m k) (hL : L.Sized k n)
    (left : ∀ s, K = scalar m s → m = k → p (L.scale s.value))
    (right : ∀ s, L = scalar k s → k = n → p (K.scale s.value))
    (diagonals : ∀ u v, K = diag u → L = diag v → u.value.size = m → m = k → m = n →
      p (ofDiagonal (tabulate m fun i => coord u.value i * coord v.value i)))
    (factors : ∀ a b c d, K = kron a b → L = kron c d → Chains a b c d →
      Yields (a.mul c >>= fun P => b.mul d >>= fun Q => pure (kron P Q)) p)
    (written : Unchained K L ∨ K.kind.ofProduct L.kind = .dense → Yields (K.denseProduct L) p) :
    Yields (K.mul L) p := by
  rw [mul.eq_def]
  refine (yields_size hK).bind ?_
  rintro _ rfl
  refine (yields_size hL).bind ?_
  rintro _ rfl
  simp only [ne_eq, not_true_eq_false, if_false]
  have hdense : ∀ {t : Kind}, Ensures (K.denseProduct L) (·.kind ∈ [t, .dense]) := fun {t} =>
    (ensures_kind_denseProduct K L).mono fun P hP => by simp [hP]
  split
  case h_1 _ q s =>
    obtain ⟨rfl, hk⟩ : q = m ∧ q = k := hK
    refine yields_expectKind (Ensures.pure_iff.mpr ?_) (Yields.pure_iff.mpr (left s rfl hk))
    exact List.mem_cons.mpr (.inl ((kind_scale s.value L).trans (Kind.scalar_ofProduct L.kind).symm))
  case h_2 q s _ =>
    obtain ⟨rfl, hn⟩ : q = k ∧ q = n := hL
    refine yields_expectKind (Ensures.pure_iff.mpr ?_) (Yields.pure_iff.mpr (right s rfl hn))
    exact List.mem_cons.mpr (.inl ((kind_scale s.value K).trans (Kind.ofProduct_scalar K.kind).symm))
  case h_3 u v =>
    obtain ⟨hu, hk⟩ : u.value.size = m ∧ u.value.size = k := hK
    obtain ⟨hv, hn⟩ : v.value.size = k ∧ v.value.size = n := hL
    refine yields_expectKind (Ensures.map fun _ _ => List.mem_cons_self) ?_
    unfold Diagonal.mul
    rw [Kernel.requireLengths_bind, if_pos (hk.trans hv.symm), hu]
    exact Yields.map (Yields.pure_iff.mpr (diagonals u v rfl rfl hu (hu.symm.trans hk)
      (hu.symm.trans (hk.trans (hv.symm.trans hn)))))
  case h_4 a b c d =>
    split
    case isTrue hchains =>
      have hkron : Ensures (a.mul c >>= fun P => b.mul d >>= fun Q => pure (kron P Q)) (·.kind ∈ [.kron, .dense]) :=
        Ensures.bind_any fun P =>
          Ensures.bind_any fun Q => Ensures.pure_iff.mpr List.mem_cons_self
      have hproduct := yields_expectKind hkron (factors a b c d rfl rfl hchains)
      simp only [bind_assoc] at hproduct
      exact hproduct
    case isFalse hnot => exact yields_expectKind hdense (written (.inl ⟨a, b, c, d, rfl, rfl, hnot⟩))
  case h_5 h1 h2 h3 h4 =>
    -- The kinds that were not matched before have a dense product.
    have hkind : K.kind.ofProduct L.kind = .dense := by
      cases K with
      | dense a =>
        cases L with
        | scalar q s => exact (h2 q s rfl).elim
        | _ => rfl
      | kron a b =>
        cases L with
        | scalar q s => exact (h2 q s rfl).elim
        | kron c d => exact (h4 a b c d rfl rfl).elim
        | _ => rfl
      | diag u =>
        cases L with
        | scalar q s => exact (h2 q s rfl).elim
        | diag v => exact (h3 u v rfl rfl).elim
        | _ => rfl
      | scalar q s => exact (h1 q s rfl).elim
    exact yields_expectKind hdense (written (.inr hkind))

theorem Sized.yields_denseProduct (hK : K.Sized m k) (hL : L.Sized k n) :
    Yields (K.denseProduct L) (·.Sized m n) := by
  apply hK.denseProduct_cases hL
  · exact fun _ => ⟨rfl, rfl⟩
  · exact fun _ _ _ _ => sized_ofColumnMajor m n _
  · exact sized_ofEntries m n _
  · exact sized_ofEntries m n _

/-- A product, given those of the factors where two Kronecker products meet. -/
theorem Sized.yields_mul_of_factors (hK : K.Sized m k) (hL : L.Sized k n)
    (factors : ∀ a b c d, K = kron a b → L = kron c d → Chains a b c d →
      Yields (a.mul c) (·.Sized a.rows c.cols) ∧ Yields (b.mul d) (·.Sized b.rows d.cols)) :
    Yields (K.mul L) (·.Sized m n) := by
  apply hK.mul_cases hL
  · rintro s - rfl
    exact hL.scale _
  · rintro s - rfl
    exact hK.scale _
  · rintro u v - - - rfl rfl
    exact sized_ofDiagonal (size_tabulate m _)
  · rintro a b c d rfl rfl hchains
    obtain ⟨rfl, rfl⟩ := hK
    obtain ⟨-, rfl⟩ := hL
    obtain ⟨hP, hQ⟩ := factors a b c d rfl rfl hchains
    refine hP.bind fun P hP => hQ.bind fun Q hQ => Yields.pure_iff.mpr ?_
    exact ⟨by simp only [rows, hP.1, hQ.1], by simp only [cols, hP.2, hQ.2]⟩
  · exact fun _ => hK.yields_denseProduct hL

theorem Sized.yields_mul (hK : K.Sized m k) (hL : L.Sized k n) : Yields (K.mul L) (·.Sized m n) := by
  induction K generalizing L m k n with
  | dense a => exact hK.yields_mul_of_factors hL fun _ _ _ _ h => nomatch h
  | diag a => exact hK.yields_mul_of_factors hL fun _ _ _ _ h => nomatch h
  | scalar p s => exact hK.yields_mul_of_factors hL fun _ _ _ _ h => nomatch h
  | kron a b iha ihb =>
    apply hK.yields_mul_of_factors hL
    rintro _ _ c d ⟨⟩ rfl ⟨hac, hbd⟩
    exact ⟨iha ⟨rfl, rfl⟩ ⟨hac.symm, rfl⟩, ihb ⟨rfl, rfl⟩ ⟨hbd.symm, rfl⟩⟩

/-- `u` is the diagonal of a diagonal map or of a multiple of an identity. -/
inductive HasDiagonal (n : ℕ) : LinearMap F → Array F → Prop
  | diag (d : Stored (Array F)) : d.value.size = n → HasDiagonal n (.diag d) d.value
  | scalar (a : Stored F) : HasDiagonal n (.scalar n a) (Array.replicate n a.value)

omit [Arith F] in
theorem HasDiagonal.size_eq {u : Array F} (h : HasDiagonal n K u) : u.size = n := by
  cases h with
  | diag d hd => exact hd
  | scalar a => exact Array.size_replicate

theorem yields_diagonalAdd {u v : Array F} (hu : u.size = n) (hv : v.size = n)
    (h : p (ofDiagonal (Kernel.accumulate 1 v u))) : Yields (ofDiagonal <$> Diagonal.add u v) p := by
  unfold Diagonal.add Kernel.add
  rw [Kernel.requireLengths_bind, if_pos (hv.trans hu.symm)]
  exact Yields.map (Yields.pure_iff.mpr h)

/-- Which values a sum has. -/
theorem Sized.add_cases (hK : K.Sized m n) (hL : L.Sized m n)
    (scalars : ∀ a b, K = scalar m a → L = scalar m b → m = n → p (ofScalar m (a.value + b.value)))
    (diagonals : ∀ u v, HasDiagonal m K u → HasDiagonal m L v → m = n → K.kind.ofSum L.kind = .diag →
      p (ofDiagonal (Kernel.accumulate 1 v u)))
    (written : K.kind.ofSum L.kind = .dense →
      p (dense (.ofColumnMajor m n (coord (Kernel.accumulate 1 L.entries K.entries))))) : Yields (K.add L) p := by
  unfold add
  refine (yields_size hK).bind ?_
  rintro _ rfl
  refine (yields_size hL).bind ?_
  rintro _ rfl
  simp only [ne_eq, not_true_eq_false, if_false]
  have hadd : ∀ {u v}, HasDiagonal m K u → HasDiagonal m L v → m = n → K.kind.ofSum L.kind = .diag →
      Yields (ofDiagonal <$> Diagonal.add u v >>= expectKind [Operation.add.resultKind K.kind L.kind]) p :=
    fun hu hv hn hkind => by
      refine yields_expectKind (Ensures.map fun _ _ => ?_)
        (yields_diagonalAdd hu.size_eq hv.size_eq (diagonals _ _ hu hv hn hkind))
      rw [Operation.resultKind, hkind]
      exact List.mem_cons_self
  split
  case h_1 q a r b =>
    obtain ⟨rfl, hn⟩ : q = m ∧ q = n := hK
    obtain ⟨rfl, -⟩ : r = q ∧ r = n := hL
    exact yields_expectKind (Ensures.pure_iff.mpr List.mem_cons_self) (Yields.pure_iff.mpr (scalars a b rfl rfl hn))
  case h_2 u v => exact hadd (.diag u hK.1) (.diag v hL.1) (hK.1.symm.trans hK.2) rfl
  case h_3 u q b =>
    obtain ⟨rfl, hn⟩ : q = m ∧ q = n := hL
    exact hadd (.diag u hK.1) (.scalar b) hn rfl
  case h_4 q a v =>
    obtain ⟨rfl, hn⟩ : q = m ∧ q = n := hK
    exact hadd (.scalar a) (.diag v hL.1) hn rfl
  case h_5 h1 h2 h3 h4 =>
    -- The kinds that were not matched before have a dense sum.
    have hkind : K.kind.ofSum L.kind = .dense := by
      cases K with
      | dense a => rfl
      | kron a b => rfl
      | diag u =>
        cases L with
        | dense b => rfl
        | kron c d => rfl
        | diag v => exact (h2 u v rfl rfl).elim
        | scalar q b => exact (h3 u q b rfl rfl).elim
      | scalar p a =>
        cases L with
        | dense b => rfl
        | kron c d => rfl
        | diag v => exact (h4 p a v rfl rfl).elim
        | scalar q b => exact (h1 p a q b rfl rfl).elim
    have hsize : L.entries.size = K.entries.size := by simp [hK.1, hK.2, hL.1, hL.2]
    refine (yields_toColumnMajor K).bind ?_
    rintro _ rfl
    refine (yields_toColumnMajor L).bind ?_
    rintro _ rfl
    unfold Kernel.add
    rw [Kernel.requireLengths_bind, if_pos hsize, pure_bind, hK.1, hK.2]
    refine yields_expectKind (Ensures.pure_iff.mpr ?_) (Yields.pure_iff.mpr (written hkind))
    rw [Operation.resultKind, hkind]
    exact List.mem_cons_self

theorem Sized.yields_add (hK : K.Sized m n) (hL : L.Sized m n) : Yields (K.add L) (·.Sized m n) := by
  apply hK.add_cases hL
  · rintro a b - - rfl
    exact ⟨rfl, rfl⟩
  · rintro u v hu - rfl -
    exact sized_ofDiagonal ((Kernel.size_accumulate 1 v u).trans hu.size_eq)
  · exact fun _ => sized_ofColumnMajor m n _

/-- Maps of different sizes have no sum. -/
theorem ensures_add (K L : LinearMap F) : Ensures (K.add L) fun P => L.Sized K.rows K.cols ∧ P.Sized K.rows K.cols := by
  intro P hP
  have hL : L.Sized K.rows K.cols := by
    obtain ⟨s, hs, h⟩ := exists_of_bind_eq_ok hP
    obtain ⟨t, ht, h⟩ := exists_of_bind_eq_ok h
    dsimp only at h
    split at h
    case isTrue => cases h
    case isFalse heq =>
      rw [(size_eq_ok_iff.mp hs).2, (size_eq_ok_iff.mp ht).2, not_not, Prod.mk.injEq] at heq
      exact ⟨heq.1.symm, heq.2.symm⟩
  have hK : K.Sized K.rows K.cols := ⟨rfl, rfl⟩
  exact ⟨hL, (hK.yields_add hL).of_eq_ok hP⟩

end Arithmetic

section Inversion
variable {K : LinearMap F} {m n : ℕ}

variable [Scalar F] {eps : F}

theorem inverse_eq (eps : F) (K : LinearMap F) : K.inverse eps = reportInversion K (K.inverseOnly eps) := by
  cases K <;> rfl

theorem kind_eq_of_inverseOnly {P : LinearMap F} (h : (K.inverseOnly eps).result = .ok P) : P.kind = K.kind := by
  cases K with
  | dense d =>
    obtain ⟨inv, -, h⟩ := Outcome.exists_of_bind_eq_ok h
    cases h
    rfl
  | kron a b =>
    obtain ⟨s, -, h⟩ := Outcome.exists_of_bind_eq_ok h
    dsimp only at h
    split at h
    · cases h
    · obtain ⟨A, -, h⟩ := Outcome.exists_of_bind_eq_ok h
      obtain ⟨B, -, h⟩ := Outcome.exists_of_bind_eq_ok h
      cases h
      rfl
  | diag d =>
    rw [inverseOnly, Diagonal.inverse] at h
    split at h <;> cases h
    rfl
  | scalar n alpha =>
    rw [inverseOnly, inverseScalar] at h
    split at h <;> cases h
    rfl

/-- An inverse is what the representation has computed. -/
theorem inverseOnly_of_inverse {P : LinearMap F} (h : (K.inverse eps).result = .ok P) :
    (K.inverseOnly eps).result = .ok P := by
  rw [inverse_eq] at h
  obtain ⟨s, -, h⟩ := Outcome.exists_of_bind_eq_ok h
  dsimp only at h
  split at h
  · cases h
  · obtain ⟨J, hJ, h⟩ := Outcome.exists_of_bind_eq_ok h
    have hP : J.expectKind [Operation.inverse.resultKind K.kind K.kind] = .ok P := Outcome.ofExcept_result_eq_ok_iff.mp h
    rw [expectKind] at hP
    split at hP
    · cases hP
      exact Outcome.result_eq_ok_of_mapError hJ
    · cases hP

/-- The inverse of a product is the product of the inverses. -/
theorem exists_of_inverse_kron {a b J : LinearMap F} (h : ((kron a b).inverse eps).result = .ok J) :
    ∃ P Q, (a.inverse eps).result = .ok P ∧ (b.inverse eps).result = .ok Q ∧ J = kron P Q := by
  have h := inverseOnly_of_inverse h
  obtain ⟨s, -, h⟩ := Outcome.exists_of_bind_eq_ok h
  dsimp only at h
  split at h
  · cases h
  · obtain ⟨P, hP, h⟩ := Outcome.exists_of_bind_eq_ok h
    obtain ⟨Q, hQ, h⟩ := Outcome.exists_of_bind_eq_ok h
    cases h
    exact ⟨P, Q, Outcome.result_eq_ok_of_mapError hP, Outcome.result_eq_ok_of_mapError hQ, rfl⟩

/-- An inverse is computed anew, down to the factors of a Kronecker product. -/
theorem inverse_induction {p : LinearMap F → Prop} (dense : ∀ n f, p (.dense (.ofColumnMajor n n f)))
    (kron : ∀ P Q, p P → p Q → p (.kron P Q)) (diag : ∀ d, p (ofDiagonal d)) (scalar : ∀ n s, p (ofScalar n s))
    {J : LinearMap F} (h : (K.inverse eps).result = .ok J) : p J := by
  induction K generalizing J with
  | dense d =>
    obtain ⟨inv, hinv, h⟩ := Outcome.exists_of_bind_eq_ok (inverseOnly_of_inverse h)
    cases h
    rw [Dense.inverse] at hinv
    split at hinv
    · split at hinv
      · cases hinv
        exact dense _ _
      · cases hinv
    · cases hinv
  | kron a b iha ihb =>
    obtain ⟨P, Q, hP, hQ, rfl⟩ := exists_of_inverse_kron h
    exact kron P Q (iha hP) (ihb hQ)
  | diag d =>
    have h := inverseOnly_of_inverse h
    rw [inverseOnly, Diagonal.inverse] at h
    split at h <;> cases h
    exact diag _
  | scalar n alpha =>
    have h := inverseOnly_of_inverse h
    rw [inverseOnly, inverseScalar] at h
    split at h <;> cases h
    exact scalar _ _

theorem kind_eq_of_inverse {P : LinearMap F} (h : (K.inverse eps).result = .ok P) : P.kind = K.kind :=
  kind_eq_of_inverseOnly (inverseOnly_of_inverse h)

/-- An inverse keeps the kind of the map, so that the assertion on it holds. -/
theorem ends_inverse_of {p : LinearMap F → Prop} {q : InversionError → Prop} {r : Fault → Prop}
    (hsize : (Outcome.ofExcept K.size : Outcome InversionError (ℕ × ℕ)).Ends (· = (m, n)) q r)
    (h : m = n → (K.inverseOnly eps).Ends p q r) (hq : m ≠ n → q (.notSquare m n)) : (K.inverse eps).Ends p q r := by
  rw [inverse_eq]
  refine hsize.bind ?_
  rintro _ rfl
  dsimp only
  split
  case isTrue hne => exact Outcome.Ends.report_bind (hq hne)
  case isFalse heq =>
    have hboth := Outcome.Ends.and (h (not_not.mp heq)) fun P hP => kind_eq_of_inverseOnly hP
    refine (Outcome.Ends.mapError hboth fun _ => id).bind fun P hP => ?_
    rw [expectKind, Operation.resultKind, if_pos (List.mem_singleton.mpr hP.1)]
    exact hP.2

theorem Sized.yields_inverse_of {p : LinearMap F → Prop} {q : InversionError → Prop} (hK : K.Sized m n)
    (h : m = n → (K.inverseOnly eps).Yields p q) (hq : m ≠ n → q (.notSquare m n)) :
    (K.inverse eps).Yields p q :=
  ends_inverse_of (Outcome.Yields.lift (yields_size hK)) h hq

/-- Only a square map has an inverse, and a square map without one is singular: so is a Kronecker product whose factors
are not square. -/
theorem Sized.yields_inverse (eps : F) (hK : K.Sized m n) :
    (K.inverse eps).Yields (fun P => m = n ∧ P.Sized n n) fun e => m = n → e = .singular := by
  induction K generalizing m n with
  | dense d =>
    refine hK.yields_inverse_of (fun hmn => ?_) fun hne heq => absurd heq hne
    subst hmn
    obtain ⟨hheight, hwidth⟩ : d.height = m ∧ d.width = m := hK
    rw [inverseOnly, Dense.inverse, if_pos (hheight.trans hwidth.symm), hheight]
    cases Kernel.symmetricInverse? m d.array.value eps with
    | some a => exact ⟨rfl, sized_ofColumnMajor m m _⟩
    | none => exact fun _ => rfl
  | diag d =>
    refine hK.yields_inverse_of (fun hmn => ?_) fun hne heq => absurd heq hne
    subst hmn
    rw [inverseOnly, Diagonal.inverse]
    split
    · exact fun _ => rfl
    · exact ⟨rfl, sized_ofDiagonal (Array.size_map.trans hK.1)⟩
  | scalar p alpha =>
    refine hK.yields_inverse_of (fun hmn => ?_) fun hne heq => absurd heq hne
    subst hmn
    rw [inverseOnly, inverseScalar]
    split
    · exact fun _ => rfl
    · exact ⟨rfl, hK⟩
  | kron a b iha ihb =>
    refine hK.yields_inverse_of (fun hmn => ?_) fun hne heq => absurd heq hne
    refine Outcome.Yields.lift_bind (yields_size hK) ?_
    rintro _ rfl
    dsimp only
    rw [if_neg (not_not.mpr hmn)]
    refine Outcome.Yields.bind (Outcome.Yields.mapError (iha ⟨rfl, rfl⟩) fun _ _ _ => rfl) fun P hP => ?_
    refine Outcome.Yields.bind (Outcome.Yields.mapError (ihb ⟨rfl, rfl⟩) fun _ _ _ => rfl) fun Q hQ => ?_
    refine Outcome.Yields.pure_iff.mpr ⟨hmn, ?_⟩
    rw [← hK.2]
    exact ⟨by simp only [rows, cols, hP.2.1, hQ.2.1], by simp only [cols, hP.2.2, hQ.2.2]⟩

/-- All factors of an inverse are square, so no buffer is longer than a vector that it acts on. -/
theorem buffered_of_inverse {J : LinearMap F} (h : (K.inverse eps).result = .ok J) (hrows : J.rows < Size.capacity)
    (flip : Bool) : J.Buffered flip := by
  induction K generalizing J with
  | kron a b iha ihb =>
    obtain ⟨P, Q, hP, hQ, rfl⟩ := exists_of_inverse_kron h
    obtain ⟨-, hrowsP, hcolsP⟩ := (Sized.yields_inverse eps ⟨rfl, rfl⟩).of_result_eq_ok hP
    obtain ⟨-, hrowsQ, hcolsQ⟩ := (Sized.yields_inverse eps ⟨rfl, rfl⟩).of_result_eq_ok hQ
    have hsquareP : P.outer flip = P.rows ∧ P.inner flip = P.rows := by
      cases flip <;> simp [outer, inner, hrowsP, hcolsP]
    have hsquareQ : Q.outer flip = Q.rows ∧ Q.inner flip = Q.rows := by
      cases flip <;> simp [outer, inner, hrowsQ, hcolsQ]
    have hproduct : P.rows * Q.rows < Size.capacity := hrows
    rw [Buffered, hsquareP.1, hsquareP.2, hsquareQ.1, hsquareQ.2]
    rcases Nat.eq_zero_or_pos P.rows with hzero | hposP
    · exact .inl (.inl hzero)
    · rcases Nat.eq_zero_or_pos Q.rows with hzero | hposQ
      · exact .inl (.inr (.inr (.inl hzero)))
      · refine .inr ⟨by rwa [Nat.mul_comm], ihb hQ ?_, iha hP ?_⟩
        · exact (Nat.le_mul_of_pos_left _ hposP).trans_lt hproduct
        · exact (Nat.le_mul_of_pos_right _ hposQ).trans_lt hproduct
  | _ =>
    have hkind := kind_eq_of_inverse h
    cases J with
    | kron => cases hkind
    | _ => trivial

end Inversion

end BlockElimination.LinearMap
