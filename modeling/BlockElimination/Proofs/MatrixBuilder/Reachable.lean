import BlockElimination.Proofs.Exact
import BlockElimination.Proofs.LinearMap.Sizes
import BlockElimination.Proofs.MatrixBuilder.Writes

/-!
# The builders of a program

A builder that a program has is made of zeros in a shape whose number of cells is in range, and goes through operations
that keep the shape. So none of its operations leaves the range of sizes, the positions inside the matrix address all of
its cells, and a function that sets it is called once for every cell, in the order of the cells.
-/
namespace BlockElimination.MatrixBuilder

open Shape

variable {F : Type} [Arith F] {b : MatrixBuilder F}

/-- The builders that operations lead to. -/
inductive Reachable : MatrixBuilder F → Prop
  | zero {shape : Shape} {b : MatrixBuilder F} : zero shape = .ok b → Reachable b
  | set {b b' : MatrixBuilder F} {r c : ℕ} {x : F} : Reachable b → b.set r c x = .ok b' → Reachable b'
  | setByFunction {b b' : MatrixBuilder F} {f : ℕ → ℕ → ℕ → F} :
    Reachable b → b.setByFunction f = .ok b' → Reachable b'
  | setByCalls {σ : Type} {b b' : MatrixBuilder F} {f : ℕ → ℕ → σ → F × σ} {start stop : σ} :
    Reachable b → b.setByCalls f start = .ok (b', stop) → Reachable b'
  | setColumnMajor {b b' : MatrixBuilder F} {values : List F} :
    Reachable b → b.setColumnMajor values = .ok b' → Reachable b'
  | setRowMajor {b b' : MatrixBuilder F} {values : List F} :
    Reachable b → b.setRowMajor values = .ok b' → Reachable b'
  | scale {b : MatrixBuilder F} (alpha : F) : Reachable b → Reachable (b.scale alpha)

theorem Reachable.counted (h : b.Reachable) : b.shape.Counted := by
  induction h with
  | zero hb =>
    obtain ⟨n, hlength, hb⟩ := exists_of_bind_eq_ok hb
    obtain ⟨-, -, hb⟩ := exists_of_bind_eq_ok hb
    cases hb
    exact counted_of_length hlength
  | @set b b' r c x _ hset ih =>
    by_cases hinside : b.shape.Inside r c
    · cases (set_of_inside ih hinside x).symm.trans hset
      exact ih
    · cases (set_of_not_inside hinside x).symm.trans hset
  | @setByFunction b b' f _ hset ih =>
    rw [setByFunction_eq_setByCalls ih, setByCalls_eq ih] at hset
    cases hset
    rwa [shape_putAll]
  | @setByCalls σ b b' f start stop _ hset ih =>
    cases (setByCalls_eq ih f start).symm.trans hset
    rwa [shape_putAll]
  | @setColumnMajor b b' values _ hset ih =>
    cases (setColumnMajor_eq ih values).symm.trans hset
    rwa [shape_putAll]
  | @setRowMajor b b' values _ hset ih =>
    cases (setRowMajor_eq ih values).symm.trans hset
    rwa [shape_putAll]
  | scale alpha _ ih => exact ih

/-- The matrix that a builder stands for. -/
def element (b : MatrixBuilder F) (r c : ℕ) : F := coord b.cells (b.shape.place r c)

theorem toLinearMap_eq (hb : b.shape.Counted) :
    b.toLinearMap = .ok (.ofEntries b.shape.rows b.shape.cols b.element) := by
  have hget : ∀ p ∈ b.shape.columnMajor, b.get p.1 p.2 = .ok (b.element p.1 p.2) := fun p hp =>
    get_of_inside hb (mem_columnMajor hp)
  have hvalues : (b.shape.columnMajor.map fun p => b.element p.1 p.2).toArray =
      tabulate (b.shape.rows * b.shape.cols) fun p => b.element (p % b.shape.rows) (p / b.shape.rows) := by
    apply Array.ext
    · simp [columnMajor]
    · intro i _ _
      simp [columnMajor]
  rw [toLinearMap, toColumnMajor, mapM_eq_ok hget]
  simp only [bind, Except.bind, pure, Except.pure, hvalues]
  exact LinearMap.ofArray_tabulate b.element hb.rows_mul_cols_lt

/-- The map that is made has the elements as they are read, and it is symmetric if the shape is. -/
theorem exists_toLinearMap (hb : b.shape.Counted) : ∃ K a, b.toLinearMap = .ok K ∧ K.toColumnMajor = .ok a ∧
    (∀ r c, b.shape.Inside r c → b.get r c = .ok (coord a (c * b.shape.rows + r))) ∧
    ∀ n, b.shape = .packed n → ∀ r < n, ∀ c < n, coord a (c * n + r) = coord a (r * n + c) := by
  have hcoord : ∀ r c, b.shape.Inside r c →
      coord (LinearMap.ofEntries b.shape.rows b.shape.cols b.element).entries (c * b.shape.rows + r) =
        b.element r c := by
    intro r c hinside
    have hentry := LinearMap.coord_entries (.ofEntries b.shape.rows b.shape.cols b.element) hinside.1 hinside.2
    exact hentry.trans (Dense.entry_ofEntries b.element hinside.1 hinside.2)
  refine ⟨_, _, toLinearMap_eq hb, LinearMap.toColumnMajor_eq_ok_iff.mpr ⟨trivial, rfl⟩, ?_, ?_⟩
  · intro r c hinside
    rw [get_of_inside hb hinside, hcoord r c hinside]
    rfl
  · intro n hn r hr c hc
    obtain rfl : n = b.shape.rows := by rw [hn]; rfl
    have hcols : b.shape.cols = b.shape.rows := by rw [hn]; rfl
    have hsymm : b.element r c = b.element c r := by rw [element, element, hn, place_packed_comm]
    rw [hcoord r c ⟨hr, hcols.symm ▸ hc⟩, hcoord c r ⟨hc, hcols.symm ▸ hr⟩, hsymm]

/-- However a builder has come about, its positions address its cells one by one, but for the mirror images in a
symmetric matrix. Inside the matrix nothing is refused, outside everything is, and no size leaves its range. A function
that sets the builder, whatever state it keeps, is called once for each cell, and the map that is made has the elements as
they are read. -/
theorem Reachable.addressing (h : b.Reachable) :
    b.shape.length = .ok b.cells.size ∧
    (∀ r c, b.shape.cell r c ≠ .error .overflow) ∧
    (∀ i, (∃ r c, b.shape.cell r c = .ok i) ↔ i < b.cells.size) ∧
    (∀ r c r' c', b.shape.Inside r c → b.shape.Inside r' c' →
      (b.shape.cell r c = b.shape.cell r' c' ↔ b.shape.Shares (r, c) (r', c'))) ∧
    (∀ r c, b.shape.Inside r c → (∃ x, b.get r c = .ok x) ∧ ∀ x, ∃ b', b.set r c x = .ok b' ∧
      ∀ r' c', b.shape.Inside r' c' →
        (b.shape.Shares (r, c) (r', c') → b'.get r' c' = .ok x) ∧
        (¬b.shape.Shares (r, c) (r', c') → b'.get r' c' = b.get r' c')) ∧
    (∀ r c, ¬b.shape.Inside r c → b.get r c = .error .outOfRange ∧ ∀ x, b.set r c x = .error .outOfRange) ∧
    (∀ (σ : Type) (f : ℕ → ℕ → σ → F × σ) (start : σ), ∃ b' stop calls,
      b.setByCalls f start = .ok (b', stop) ∧ b.setByCalls (logged f) (start, []) = .ok (b', stop, calls) ∧
      calls.length = b.cells.size ∧
      ∀ k r c x, calls[k]? = some ((r, c), x) → b.shape.cell r c = .ok k ∧ b'.cells[k]? = some x) ∧
    ∃ K a, b.toLinearMap = .ok K ∧ K.toColumnMajor = .ok a ∧
      (∀ r c, b.shape.Inside r c → b.get r c = .ok (coord a (c * b.shape.rows + r))) ∧
      ∀ n, b.shape = .packed n → ∀ r < n, ∀ c < n, coord a (c * n + r) = coord a (r * n + c) := by
  have hb := h.counted
  rw [b.size_cells]
  refine ⟨hb, cell_ne_overflow hb, fun i => exists_cell_iff hb, ?shared, ?inside, ?outside, ?calls,
    exists_toLinearMap hb⟩
  case shared =>
    intro r c r' c' hinside hinside'
    exact cell_eq_cell_iff hb hinside hinside'
  case inside =>
    intro r c hinside
    refine ⟨⟨_, get_of_inside hb hinside⟩, fun x => ⟨_, set_of_inside hb hinside x, ?_⟩⟩
    intro r' c' hinside'
    exact get_put hb hinside hinside' x
  case outside =>
    intro r c hinside
    exact ⟨get_of_not_inside hinside, set_of_not_inside hinside⟩
  case calls =>
    intro σ f start
    exact exists_setByCalls hb f start

/-- A symmetric matrix of size three, written column by column and scaled. -/
def scaledTriangle : Except Fault (MatrixBuilder ℤ) := do
  let b ← zero (.packed 3)
  let b ← b.setColumnMajor [1, 0, 0, 2, 3, 0, 4, 5, 6]
  return b.scale 2

/-- A function that tells its row, its column and how often it has been called. -/
def telling (r c calls : ℕ) : ℤ × ℕ := (r + 10 * c + 100 * calls, calls + 1)

theorem exists_scaledTriangle : ∃ b, scaledTriangle = .ok b ∧ b.Reachable ∧ b.shape = .packed 3 := by
  obtain ⟨b, hb⟩ := exists_eq_ok (show scaledTriangle.toBool = true by decide +kernel)
  have hshape : scaledTriangle.map shape = .ok (.packed 3) := by decide +kernel
  rw [hb] at hshape
  refine ⟨b, hb, ?_, Except.ok.inj hshape⟩
  obtain ⟨zeros, hzeros, hb⟩ := exists_of_bind_eq_ok hb
  obtain ⟨written, hwritten, hb⟩ := exists_of_bind_eq_ok hb
  cases hb
  exact ((Reachable.zero hzeros).setColumnMajor hwritten).scale 2

theorem scaledTriangle_addressing : ∃ b, scaledTriangle = .ok b ∧ b.shape.length = .ok b.cells.size ∧
    b.shape.cell 2 1 = b.shape.cell 1 2 ∧ b.get 0 3 = .error .outOfRange ∧
    (∃ b', b.set 2 0 7 = .ok b' ∧ b'.get 0 2 = .ok 7 ∧ b'.get 1 2 = b.get 1 2) ∧
    (∃ b' stop calls, b.setByCalls (logged telling) (0, []) = .ok (b', stop, calls) ∧ calls.length = b.cells.size ∧
      ∀ k r c x, calls[k]? = some ((r, c), x) → b.shape.cell r c = .ok k ∧ b'.cells[k]? = some x) ∧
    ∃ K a, b.toLinearMap = .ok K ∧ K.toColumnMajor = .ok a ∧
      ∀ r < 3, ∀ c < 3, coord a (c * 3 + r) = coord a (r * 3 + c) := by
  obtain ⟨b, hb, hreachable, hshape⟩ := exists_scaledTriangle
  have hinside : ∀ r < 3, ∀ c < 3, b.shape.Inside r c := fun r hr c hc => by rw [hshape]; exact ⟨hr, hc⟩
  have houtside : ¬b.shape.Inside 0 3 := by rw [hshape]; exact fun h => absurd h.2 (lt_irrefl 3)
  have hshares : b.shape.Shares (2, 1) (1, 2) ∧ b.shape.Shares (2, 0) (0, 2) ∧ ¬b.shape.Shares (2, 0) (1, 2) := by
    rw [hshape]
    exact ⟨.inr rfl, .inr rfl, by simp [Shares]⟩
  obtain ⟨hlength, -, -, hshared, hwrite, hrefused, hcalls, K, a, hK, ha, -, hsymm⟩ := hreachable.addressing
  obtain ⟨b', hset, hread⟩ := (hwrite 2 0 (hinside 2 (by decide) 0 (by decide))).2 7
  obtain ⟨b'', stop, calls, -, hrun, hcount, hstored⟩ := hcalls ℕ telling 0
  refine ⟨b, hb, hlength, ?_, (hrefused 0 3 houtside).1, ⟨b', hset, ?_, ?_⟩, ⟨b'', stop, calls, hrun, hcount, hstored⟩,
    K, a, hK, ha, hsymm 3 hshape⟩
  · exact (hshared 2 1 1 2 (hinside 2 (by decide) 1 (by decide)) (hinside 1 (by decide) 2 (by decide))).mpr hshares.1
  · exact (hread 0 2 (hinside 0 (by decide) 2 (by decide))).1 hshares.2.1
  · exact (hread 1 2 (hinside 1 (by decide) 2 (by decide))).2 hshares.2.2

end BlockElimination.MatrixBuilder
