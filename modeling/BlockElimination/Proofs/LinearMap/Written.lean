import BlockElimination.Proofs.LinearMap.Action

/-!
# Maps written out

A map is written out as an array that holds its columns one after another. For a Kronecker product that array holds all
products of entries of the factors, whereas its action never forms them; both are the same matrix nevertheless.
-/
namespace BlockElimination.LinearMap

open Matrix

/-- In block `(i, j)` of a written-out product, the entry `(i, j)` of the left factor multiplies the right factor. -/
theorem coord_entries_kron {F : Type} [Arith F] {a b : LinearMap F} {i j p q : ℕ} (hi : i < a.rows) (hj : j < a.cols)
    (hp : p < b.rows) (hq : q < b.cols) :
    coord (kron a b).entries ((j * b.cols + q) * (a.rows * b.rows) + (i * b.rows + p)) =
      coord a.entries (j * a.rows + i) * coord b.entries (q * b.rows + p) := by
  have hrow : i * b.rows + p < (kron a b).rows := (Kernel.columnMajor_lt hp hi).trans_eq (Nat.mul_comm b.rows a.rows)
  have hcol : j * b.cols + q < (kron a b).cols := (Kernel.columnMajor_lt hq hj).trans_eq (Nat.mul_comm b.cols a.cols)
  rw [coord_entries a hi hj, coord_entries b hp hq]
  refine (coord_entries (kron a b) hrow hcol).trans ?_
  rw [entry, Kernel.columnMajor_div hp, Kernel.columnMajor_mod hp, Kernel.columnMajor_div hq, Kernel.columnMajor_mod hq]

variable {F : Type} [CommRing F] {alpha beta : F} {x y : Array F}

/-- The `m` by `n` matrix that an array holds column by column. -/
def columnMajor (m n : ℕ) (a : Array F) : Matrix (Fin m) (Fin n) F := .of fun i j => coord a (j * m + i)

variable [DecidableEq F]

theorem columnMajor_entries (K : LinearMap F) : columnMajor K.rows K.cols K.entries = K.matrix K.rows K.cols := by
  ext i j
  exact coord_entries K i.isLt j.isLt

/-- The array that the map is written out as holds the matrix `M`, unless a size leaves its range. -/
def WrittenAs {m n : ℕ} (K : LinearMap F) (M : Matrix (Fin m) (Fin n) F) : Prop :=
  Yields K.toColumnMajor fun a => a.size = m * n ∧ columnMajor m n a = M

theorem Sized.writtenAs {K : LinearMap F} {m n : ℕ} (hK : K.Sized m n) : K.WrittenAs (K.matrix m n) := by
  obtain ⟨rfl, rfl⟩ := hK
  refine (yields_toColumnMajor K).mono ?_
  rintro _ rfl
  exact ⟨size_entries K, columnMajor_entries K⟩

theorem Sized.columnMajor_eq {K : LinearMap F} {m n : ℕ} (hK : K.Sized m n) {a : Array F}
    (ha : K.toColumnMajor = .ok a) : columnMajor m n a = K.matrix m n :=
  (hK.writtenAs.of_eq_ok ha).2

/-- The maps have one size and are written out as one array, whatever their kinds are. -/
structure SameMatrix (K L : LinearMap F) : Prop where
  rows_eq : K.rows = L.rows
  cols_eq : K.cols = L.cols
  written : Yields K.toColumnMajor fun a => Yields L.toColumnMajor (· = a)

theorem Sized.sameMatrix {K L : LinearMap F} {m n : ℕ} (hK : K.Sized m n) (hL : L.Sized m n)
    (h : K.matrix m n = L.matrix m n) : K.SameMatrix L := by
  obtain ⟨rfl, rfl⟩ := hK
  have hentries : K.entries = L.entries := by
    rw [entries, entries, hL.1, hL.2]
    refine tabulate_congr fun r hr => ?_
    have hrows : 0 < K.rows := Nat.pos_of_mul_pos_right (Nat.zero_lt_of_lt hr)
    exact congrFun (congrFun h ⟨r % K.rows, Nat.mod_lt r hrows⟩) ⟨r / K.rows, Nat.div_lt_of_lt_mul hr⟩
  refine ⟨hL.1.symm, hL.2.symm, (yields_toColumnMajor K).mono ?_⟩
  rintro _ rfl
  exact (yields_toColumnMajor L).mono fun _ ha => ha.trans hentries.symm

omit [DecidableEq F] in
theorem Writable.fits_of_kron {F : Type} {K : LinearMap F} (h : K.Writable) (hkron : K.kind = .kron) : K.Fits := by
  cases K with
  | kron a b => exact h.1
  | _ => cases hkron

omit [DecidableEq F] in
/-- A map that can be written out needs no buffer that is larger. -/
theorem Writable.buffered {F : Type} {K : LinearMap F} (h : K.Writable) (flip : Bool) : K.Buffered flip := by
  induction K with
  | kron a b iha ihb =>
    obtain ⟨-, ha, hb, hroom⟩ := h
    by_cases hzero : a.outer flip = 0 ∨ a.inner flip = 0 ∨ b.outer flip = 0 ∨ b.inner flip = 0
    · exact .inl hzero
    · have hpos : 0 < a.outer flip * b.inner flip := by
        push Not at hzero
        exact Nat.mul_pos (by omega) (by omega)
      have hsize : b.outer flip * a.inner flip * (a.outer flip * b.inner flip) =
          a.rows * b.rows * (a.cols * b.cols) := by
        cases flip <;> simp only [outer, inner, Bool.false_eq_true, if_true, if_false] <;> ring
      exact .inr ⟨((Nat.le_mul_of_pos_right _ hpos).trans_eq hsize).trans_lt hroom, ihb hb, iha ha⟩
  | _ => trivial

/-- Acting with a map of any representation is multiplying by the matrix that it is written out as, and acting with its
transpose is multiplying by the transposed matrix. If the map can be written out, then no action on vectors of the right
lengths is refused, but for the image of a vector, for which there may be no room. -/
theorem actions_eq_written (K : LinearMap F) :
    Yields K.toColumnMajor fun a => a.size = K.rows * K.cols ∧
      (∀ alpha beta x y, x.size = K.cols → y.size = K.rows → ∃ z, K.actOn alpha x beta y = .ok z ∧
        z.size = K.rows ∧ coords K.rows z =
          alpha • (columnMajor K.rows K.cols a *ᵥ coords K.cols x) + beta • coords K.rows y) ∧
      (∀ alpha beta x y, x.size = K.rows → y.size = K.cols → ∃ z, K.transposeActOn alpha x beta y = .ok z ∧
        z.size = K.cols ∧ coords K.cols z =
          alpha • ((columnMajor K.rows K.cols a)ᵀ *ᵥ coords K.rows x) + beta • coords K.cols y) ∧
      ∀ x, x.size = K.cols → if K.Fits ∧ K.rows < Size.capacity then ∃ z, K.apply x = .ok z ∧
        z.size = K.rows ∧ coords K.rows z = columnMajor K.rows K.cols a *ᵥ coords K.cols x
      else K.apply x = .error .overflow := by
  have hK : K.Sized K.rows K.cols := ⟨rfl, rfl⟩
  by_cases hwritable : K.Writable
  case neg =>
    rw [toColumnMajor, if_neg hwritable]
    exact rfl
  have hkron : K.kind = .kron → K.Fits := hwritable.fits_of_kron
  rw [toColumnMajor, if_pos hwritable, Yields.ok_iff, columnMajor_entries]
  refine ⟨size_entries K, fun alpha beta x y hx hy => ?_, fun alpha beta x y hx hy => ?_, fun x hx => ?_⟩
  · have hvalue : K.actOn alpha x beta y = .ok (K.action false alpha x beta y) :=
      (checkedAction_eq hkron hx hy).trans (if_pos (hwritable.buffered false))
    exact ⟨_, hvalue, size_action hx hy, coords_action hK hx hy⟩
  · have hvalue : K.transposeActOn alpha x beta y = .ok (K.transpose.action false alpha x beta y) := by
      rw [← action_true]
      exact (checkedAction_eq hkron hx hy).trans (if_pos (hwritable.buffered true))
    have hxcols : x.size = K.transpose.cols := hx.trans K.cols_transpose.symm
    have hyrows : y.size = K.transpose.rows := hy.trans K.rows_transpose.symm
    rw [← matrix_transpose]
    exact ⟨_, hvalue, (size_action hxcols hyrows).trans K.rows_transpose, coords_action hK.transpose hx hy⟩
  · have hvalue := apply_eq hx
    simp only [hwritable.buffered false, and_true] at hvalue
    rw [hvalue]
    split
    · exact ⟨_, rfl, size_action hx Array.size_replicate, coords_image hK hx⟩
    · rfl

/-- A product of a transposed column, a diagonal and a row. -/
def nested : LinearMap ℤ :=
  .kron (LinearMap.ofEntries 2 1 fun i _ => (i : ℤ) + 1).transpose
    (.kron (.ofDiagonal #[2, -1]) (.ofEntries 1 2 fun _ j => (j : ℤ) - 3))

theorem nested_action : ∃ a, nested.toColumnMajor = .ok a ∧
    nested.actOn 2 #[1, 2, 3, 4, 5, 6, 7, 8] 3 #[-1, 1] = .ok #[-247, 185] ∧
    coords nested.rows #[-247, 185] = (2 : ℤ) • (columnMajor nested.rows nested.cols a *ᵥ
      coords nested.cols #[1, 2, 3, 4, 5, 6, 7, 8]) + (3 : ℤ) • coords nested.rows #[-1, 1] ∧
    nested.transposeActOn 2 #[-1, 1] 3 #[1, 2, 3, 4, 5, 6, 7, 8] = .ok #[15, 14, 15, 16, 39, 34, 33, 32] ∧
    coords nested.cols #[15, 14, 15, 16, 39, 34, 33, 32] =
      (2 : ℤ) • ((columnMajor nested.rows nested.cols a)ᵀ *ᵥ coords nested.rows #[-1, 1]) +
        (3 : ℤ) • coords nested.cols #[1, 2, 3, 4, 5, 6, 7, 8] ∧
    nested.apply #[1, 2, 3, 4, 5, 6, 7, 8] = .ok #[-122, 91] ∧
    coords nested.rows #[-122, 91] =
      columnMajor nested.rows nested.cols a *ᵥ coords nested.cols #[1, 2, 3, 4, 5, 6, 7, 8] := by
  obtain ⟨a, ha⟩ := exists_eq_ok (show nested.toColumnMajor.toBool = true by decide +kernel)
  have hact : nested.actOn 2 #[1, 2, 3, 4, 5, 6, 7, 8] 3 #[-1, 1] = .ok #[-247, 185] := by decide +kernel
  have htranspose : nested.transposeActOn 2 #[-1, 1] 3 #[1, 2, 3, 4, 5, 6, 7, 8] =
      .ok #[15, 14, 15, 16, 39, 34, 33, 32] := by decide +kernel
  have happly : nested.apply #[1, 2, 3, 4, 5, 6, 7, 8] = .ok #[-122, 91] := by decide +kernel
  obtain ⟨-, hacts, htransposes, happlies⟩ := (actions_eq_written nested).of_eq_ok ha
  obtain ⟨z, hz, -, hzcoords⟩ := hacts 2 3 #[1, 2, 3, 4, 5, 6, 7, 8] #[-1, 1] rfl rfl
  obtain ⟨w, hw, -, hwcoords⟩ := htransposes 2 3 #[-1, 1] #[1, 2, 3, 4, 5, 6, 7, 8] rfl rfl
  have himage := happlies #[1, 2, 3, 4, 5, 6, 7, 8] rfl
  rw [if_pos (by decide +kernel)] at himage
  obtain ⟨u, hu, -, hucoords⟩ := himage
  cases hact.symm.trans hz
  cases htranspose.symm.trans hw
  cases happly.symm.trans hu
  exact ⟨a, ha, hact, hzcoords, htranspose, hwcoords, happly, hucoords⟩

end BlockElimination.LinearMap
