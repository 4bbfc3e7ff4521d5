import BlockElimination.Proofs.LinearMap.Arithmetic

/-!
# Sums of several maps

A sum is refused only if a size leaves its range, and which sums are is a matter of the pairs of summands. Over a ring
the order of the summands is therefore of no importance, neither for whether there is a sum nor for what it is: its kind
and every number that it stores.
-/
namespace BlockElimination

namespace Kind

theorem ofSum_comm (s t : Kind) : s.ofSum t = t.ofSum s := by cases s <;> cases t <;> rfl

theorem ofSum_right_comm (s t u : Kind) : (s.ofSum t).ofSum u = (s.ofSum u).ofSum t := by
  cases s <;> cases t <;> cases u <;> rfl

/-- Maps of these kinds store a diagonal, or one number for all of it. -/
def IsSpecial (t : Kind) : Prop := t = .diag ∨ t = .scalar

theorem ofSum_eq_dense_iff {s t : Kind} : s.ofSum t = .dense ↔ ¬(s.IsSpecial ∧ t.IsSpecial) := by
  cases s <;> cases t <;> simp [ofSum, IsSpecial]

theorem ofSum_eq_scalar {s t : Kind} (h : s.ofSum t = .scalar) : s = .scalar := by
  cases s <;> cases t <;> first | rfl | cases h

theorem isSpecial_ofSum {s t : Kind} : (s.ofSum t).IsSpecial ↔ s.IsSpecial ∧ t.IsSpecial := by
  cases s <;> cases t <;> simp [ofSum, IsSpecial]

end Kind

namespace LinearMap

section Existence
variable {F : Type}

theorem Fits.rows_lt {K : LinearMap F} (h : K.Fits) : K.rows < Size.bound ∧ K.cols < Size.bound := by
  cases K with
  | dense d => exact h
  | kron a b => exact (fits_kron.mp h).2.2
  | diag d => exact ⟨h, h⟩
  | scalar n alpha => exact ⟨h, h⟩

theorem fits_of_kind_ne_kron {K : LinearMap F} (h : K.kind ≠ .kron) (hrows : K.rows < Size.bound)
    (hcols : K.cols < Size.bound) : K.Fits := by
  cases K with
  | dense d => exact ⟨hrows, hcols⟩
  | kron a b => exact absurd rfl h
  | diag d => exact hrows
  | scalar n alpha => exact hrows

variable {K L M P : LinearMap F} {m n : ℕ}

theorem writable_of_kind_eq_dense (h : K.kind = .dense) : K.Writable := by
  cases K with
  | dense d => trivial
  | _ => cases h

theorem Sized.writable_iff_of_isSpecial (hK : K.Sized m n) (h : K.kind.IsSpecial) :
    K.Writable ↔ m * m < Size.capacity := by
  obtain ⟨rfl, -⟩ := hK
  cases K with
  | dense d => rcases h with h | h <;> cases h
  | kron a b => rcases h with h | h <;> cases h
  | diag d => rfl
  | scalar n alpha => rfl

theorem Sized.square_of_isSpecial (hK : K.Sized m n) (h : K.kind.IsSpecial) : m = n := by
  obtain ⟨rfl, rfl⟩ := hK
  cases K with
  | dense d => rcases h with h | h <;> cases h
  | kron a b => rcases h with h | h <;> cases h
  | diag d => rfl
  | scalar n alpha => rfl

/-- The sizes are in range, and unless both maps store a diagonal both can be written out. -/
structure Addable (K L : LinearMap F) : Prop where
  fits_left : K.Fits
  fits_right : L.Fits
  stored : K.kind.IsSpecial ∧ L.kind.IsSpecial ∨ K.Writable ∧ L.Writable

theorem addable_comm : Addable K L ↔ Addable L K :=
  ⟨fun h => ⟨h.fits_right, h.fits_left, h.stored.imp And.symm And.symm⟩,
    fun h => ⟨h.fits_right, h.fits_left, h.stored.imp And.symm And.symm⟩⟩

variable [Arith F]

theorem add_of_dense (h : K.kind.ofSum L.kind = .dense) :
    K.add L = (do
      let left ← K.size
      let right ← L.size
      if left ≠ right then .error (.sumShape left right)
      else
        let a ← K.toColumnMajor
        let b ← L.toColumnMajor
        let c ← Kernel.add 1 b a
        return dense (.ofColumnMajor K.rows K.cols (coord c))) := by
  cases K <;> cases L <;> first | rfl | cases h

theorem addable_of_add_eq_ok (h : K.add L = .ok P) : Addable K L := by
  obtain ⟨s, hs, h'⟩ := exists_of_bind_eq_ok h
  obtain ⟨t, ht, -⟩ := exists_of_bind_eq_ok h'
  refine ⟨(size_eq_ok_iff.mp hs).1, (size_eq_ok_iff.mp ht).1, or_iff_not_imp_left.mpr fun hnot => ?_⟩
  rw [add_of_dense (Kind.ofSum_eq_dense_iff.mpr hnot), hs, ht] at h
  change (if s ≠ t then _ else _) = _ at h
  split at h
  · cases h
  · obtain ⟨a, ha, h⟩ := exists_of_bind_eq_ok h
    obtain ⟨b, hb, -⟩ := exists_of_bind_eq_ok h
    exact ⟨(toColumnMajor_eq_ok_iff.mp ha).1, (toColumnMajor_eq_ok_iff.mp hb).1⟩

theorem Addable.exists_add_eq_ok (h : Addable K L) (hK : K.Sized m n) (hL : L.Sized m n) : ∃ P, K.add L = .ok P := by
  have hsize : K.size = .ok (m, n) := by rw [size_of_fits h.fits_left, hK.1, hK.2]
  have hsize' : L.size = .ok (m, n) := by rw [size_of_fits h.fits_right, hL.1, hL.2]
  by_cases hspecial : K.kind.IsSpecial ∧ L.kind.IsSpecial
  · cases K <;> cases L <;>
      simp_all [add, Sized, rows, cols, kind, Kind.IsSpecial, Kind.ofSum, Operation.resultKind, expectKind,
        Diagonal.add, Kernel.add, Kernel.requireLengths, ofScalar, ofDiagonal, bind, Except.bind, pure, Except.pure,
        Functor.map, Except.map]
  · obtain ⟨hKw, hLw⟩ := h.stored.resolve_left hspecial
    have hlength : L.entries.size = K.entries.size := by simp [hK.1, hK.2, hL.1, hL.2]
    rw [add_of_dense (Kind.ofSum_eq_dense_iff.mpr hspecial), hsize, hsize', toColumnMajor_eq_ok_iff.mpr ⟨hKw, rfl⟩,
      toColumnMajor_eq_ok_iff.mpr ⟨hLw, rfl⟩]
    simp [bind, Except.bind, Kernel.add, Kernel.requireLengths, hlength, pure, Except.pure]

theorem Sized.yields_kind_add (hK : K.Sized m n) (hL : L.Sized m n) :
    Yields (K.add L) (·.kind = K.kind.ofSum L.kind) := by
  apply hK.add_cases hL
  · rintro a b rfl rfl -
    rfl
  · exact fun _ _ _ _ _ h => h.symm
  · exact fun h => h.symm

theorem fits_of_add_eq_ok (h : K.add L = .ok P) : P.Fits := by
  obtain ⟨hL, hP⟩ := ensures_add K L P h
  have hkind : P.kind = K.kind.ofSum L.kind := (Sized.yields_kind_add ⟨rfl, rfl⟩ hL).of_eq_ok h
  obtain ⟨hrows, hcols⟩ := (addable_of_add_eq_ok h).fits_left.rows_lt
  exact fits_of_kind_ne_kron (hkind ▸ ofSum_ne_kron _ _) (hP.1.trans_lt hrows) (hP.2.trans_lt hcols)

/-- A sum has a sum with a map exactly if both summands have. -/
theorem addable_sum_iff (hK : K.Sized m n) (hL : L.Sized m n) (hP : K.add L = .ok P) :
    Addable P M ↔ Addable K M ∧ Addable L M := by
  have hKL := addable_of_add_eq_ok hP
  have hsized : P.Sized m n := (hK.yields_add hL).of_eq_ok hP
  have hkind : P.kind = K.kind.ofSum L.kind := (hK.yields_kind_add hL).of_eq_ok hP
  have hspecial : P.kind.IsSpecial ↔ K.kind.IsSpecial ∧ L.kind.IsSpecial := hkind ▸ Kind.isSpecial_ofSum
  have hstored : (P.kind.IsSpecial ∧ M.kind.IsSpecial ∨ P.Writable ∧ M.Writable) ↔
      (K.kind.IsSpecial ∧ M.kind.IsSpecial ∨ K.Writable ∧ M.Writable) ∧
        (L.kind.IsSpecial ∧ M.kind.IsSpecial ∨ L.Writable ∧ M.Writable) := by
    by_cases hboth : K.kind.IsSpecial ∧ L.kind.IsSpecial
    · rw [hsized.writable_iff_of_isSpecial (hspecial.mpr hboth), hK.writable_iff_of_isSpecial hboth.1,
        hL.writable_iff_of_isSpecial hboth.2]
      simp [hspecial.mpr hboth, hboth.1, hboth.2]
    · have hwritten := hKL.stored.resolve_left hboth
      have hP : P.Writable := writable_of_kind_eq_dense (hkind.trans (Kind.ofSum_eq_dense_iff.mpr hboth))
      have hnot : ¬P.kind.IsSpecial := mt hspecial.mp hboth
      simp only [hP, hnot, hwritten.1, hwritten.2, false_and, true_and, false_or]
      tauto
  constructor
  · intro h
    obtain ⟨hKM, hLM⟩ := hstored.mp h.stored
    exact ⟨⟨hKL.fits_left, h.fits_right, hKM⟩, ⟨hKL.fits_right, h.fits_right, hLM⟩⟩
  · rintro ⟨hKM, hLM⟩
    exact ⟨fits_of_add_eq_ok hP, hKM.fits_right, hstored.mpr ⟨hKM.stored, hLM.stored⟩⟩

theorem exists_add_add_eq_ok_iff (hK : K.Sized m n) (hL : L.Sized m n) (hM : M.Sized m n) :
    (∃ Q, (K.add L >>= (·.add M)) = .ok Q) ↔ Addable K L ∧ Addable K M ∧ Addable L M := by
  constructor
  · rintro ⟨Q, h⟩
    obtain ⟨P, hP, hQ⟩ := exists_of_bind_eq_ok h
    exact ⟨addable_of_add_eq_ok hP, (addable_sum_iff hK hL hP).mp (addable_of_add_eq_ok hQ)⟩
  · rintro ⟨hKL, hM'⟩
    obtain ⟨P, hP⟩ := hKL.exists_add_eq_ok hK hL
    rw [hP]
    exact ((addable_sum_iff hK hL hP).mpr hM').exists_add_eq_ok ((hK.yields_add hL).of_eq_ok hP) hM

end Existence

section Values
variable {F : Type} [CommRing F] [DecidableEq F] {K L M : LinearMap F} {m n : ℕ}

/-- The map with the given entries, of a kind that is not a Kronecker product. -/
def ofKind (kind : Kind) (m n : ℕ) (f : ℕ → ℕ → F) : LinearMap F :=
  match kind with
  | .scalar => ofScalar m (f 0 0)
  | .diag => ofDiagonal (tabulate m fun i => f i i)
  | _ => ofEntries m n f

omit [CommRing F] [DecidableEq F] in
theorem ofKind_congr {kind : Kind} {f g : ℕ → ℕ → F} (hsquare : kind = .diag → m = n)
    (hscalar : kind = .scalar → f 0 0 = g 0 0) (h : ∀ i < m, ∀ j < n, f i j = g i j) :
    ofKind kind m n f = ofKind kind m n g := by
  have hentries : ofEntries m n f = ofEntries m n g := ofColumnMajor_eq_ofEntries g fun p hp =>
    h _ (Nat.mod_lt p (Nat.pos_of_mul_pos_right (Nat.zero_lt_of_lt hp))) _ (Nat.div_lt_of_lt_mul hp)
  cases kind with
  | dense => exact hentries
  | kron => exact hentries
  | diag =>
    obtain rfl := hsquare rfl
    exact congrArg ofDiagonal (tabulate_congr fun i hi => h i hi i hi)
  | scalar => exact congrArg (ofScalar m) (hscalar rfl)

theorem HasDiagonal.coord_eq {u : Array F} (h : HasDiagonal n K u) {i : ℕ} (hi : i < n) : coord u i = K.entry i i := by
  cases h with
  | diag d _ => simp [entry]
  | scalar a => simp [entry, coord, hi]

theorem yields_add_eq_ofKind (hK : K.Sized m n) (hL : L.Sized m n) :
    Yields (K.add L) (· = ofKind (K.kind.ofSum L.kind) m n fun i j => K.entry i j + L.entry i j) := by
  apply hK.add_cases hL
  · rintro a b rfl rfl -
    simp [kind, Kind.ofSum, ofKind, entry]
  · rintro u v hu hv rfl hkind
    rw [hkind]
    refine congrArg ofDiagonal ?_
    rw [Kernel.accumulate, hu.size_eq]
    exact tabulate_congr fun i hi => by rw [hu.coord_eq hi, hv.coord_eq hi, one_mul]
  · intro hkind
    rw [hkind]
    refine ofColumnMajor_eq_ofEntries _ fun p hp => ?_
    have hK' : p < K.rows * K.cols := by rwa [hK.1, hK.2]
    have hL' : p < L.rows * L.cols := by rwa [hL.1, hL.2]
    rw [coord_accumulate _ (hK'.trans_eq (size_entries K).symm), one_mul, entries, entries, coord_tabulate,
      coord_tabulate, if_pos hK', if_pos hL', hK.1, hL.1]

theorem yields_add_add (hK : K.Sized m n) (hL : L.Sized m n) (hM : M.Sized m n) :
    Yields (K.add L >>= (·.add M))
      (· = ofKind ((K.kind.ofSum L.kind).ofSum M.kind) m n fun i j => K.entry i j + L.entry i j + M.entry i j) := by
  refine ((yields_add hK hL).and fun P => (yields_add_eq_ofKind hK hL).of_eq_ok).bind ?_
  rintro P ⟨⟨hP, hmatrix, hkind⟩, hvalue⟩
  refine (yields_add_eq_ofKind hP hM).mono ?_
  rintro Q rfl
  rw [hkind]
  refine ofKind_congr (fun hdiag => ?_) (fun hscalar => ?_) fun i hi j hj => ?_
  · have hspecial : P.kind.IsSpecial := hkind ▸ (Kind.isSpecial_ofSum.mp (.inl hdiag)).1
    exact hP.square_of_isSpecial hspecial
  · rw [Kind.ofSum_eq_scalar hscalar] at hvalue
    rw [hvalue]
    simp [ofKind, ofScalar, entry]
  · exact congrArg (· + _) (congrFun (congrFun hmatrix ⟨i, hi⟩) ⟨j, hj⟩)

/-- Two maps have one sum in both orders. -/
theorem add_comm_of_sized (hK : K.Sized m n) (hL : L.Sized m n) : K.add L = L.add K := by
  have hflipped := yields_add_eq_ofKind hL hK
  rw [Kind.ofSum_comm] at hflipped
  simp only [add_comm (L.entry _ _)] at hflipped
  refine Yields.eq_of_exists_iff (yields_add_eq_ofKind hK hL) hflipped ⟨?_, ?_⟩
  · rintro ⟨P, hP⟩
    exact (addable_comm.mp (addable_of_add_eq_ok hP)).exists_add_eq_ok hL hK
  · rintro ⟨P, hP⟩
    exact (addable_comm.mp (addable_of_add_eq_ok hP)).exists_add_eq_ok hK hL

/-- Two maps may be added to a third in both orders. -/
theorem add_right_comm_of_sized (hK : K.Sized m n) (hL : L.Sized m n) (hM : M.Sized m n) :
    (K.add L >>= (·.add M)) = (K.add M >>= (·.add L)) := by
  have hflipped := yields_add_add hK hM hL
  rw [Kind.ofSum_right_comm] at hflipped
  simp only [add_right_comm (K.entry _ _) (M.entry _ _)] at hflipped
  refine Yields.eq_of_exists_iff (yields_add_add hK hL hM) hflipped ?_
  rw [exists_add_add_eq_ok_iff hK hL hM, exists_add_add_eq_ok_iff hK hM hL, addable_comm (K := L)]
  tauto

end Values

end LinearMap

end BlockElimination
