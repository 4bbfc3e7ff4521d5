import BlockElimination.Proofs.Kernel.Workspace
import BlockElimination.Proofs.MatrixBuilder.Cells

/-!
# Writes into a builder

Inside the matrix, reading and writing go to the place of the position and never fail. A run of writes is then one pass
over the cells: of several writes to one cell the last stays, and a cell that no write reaches keeps its value. All
operations of a builder keep its shape, so that the number of its cells stays in range.
-/
namespace BlockElimination.MatrixBuilder

open Shape

variable {F : Type} {b : MatrixBuilder F} {r c i : ℕ} {x : F}

/-- The builder with one cell overwritten. -/
def put (b : MatrixBuilder F) (i : ℕ) (x : F) : MatrixBuilder F :=
  { b with cells := b.cells.setIfInBounds i x, size_cells := by simpa using b.size_cells }

@[simp] theorem shape_put (b : MatrixBuilder F) (i : ℕ) (x : F) : (b.put i x).shape = b.shape := rfl

theorem set_of_inside (hb : b.shape.Counted) (h : b.shape.Inside r c) (x : F) :
    b.set r c x = .ok (b.put (b.shape.place r c) x) := by
  have hlt : b.shape.place r c < b.cells.size := b.size_cells.symm ▸ place_lt_cellCount h
  rw [set, cell_of_inside hb h]
  refine (dif_pos hlt).trans ?_
  simp [put, Array.setIfInBounds, hlt, pure, Except.pure]

theorem get_of_not_inside (h : ¬b.shape.Inside r c) : b.get r c = .error .outOfRange := by
  rw [get, cell_of_not_inside h]
  rfl

theorem set_of_not_inside (h : ¬b.shape.Inside r c) (x : F) : b.set r c x = .error .outOfRange := by
  rw [set, cell_of_not_inside h]
  rfl

section Runs

/-- Overwrites cells one after the other. -/
def putAll (b : MatrixBuilder F) (writes : List (ℕ × F)) : MatrixBuilder F :=
  writes.foldl (fun b w => b.put w.1 w.2) b

@[simp] theorem putAll_nil (b : MatrixBuilder F) : b.putAll [] = b := rfl

@[simp] theorem putAll_cons (b : MatrixBuilder F) (w : ℕ × F) (ws : List (ℕ × F)) :
    b.putAll (w :: ws) = (b.put w.1 w.2).putAll ws := rfl

@[simp] theorem shape_putAll (b : MatrixBuilder F) (ws : List (ℕ × F)) : (b.putAll ws).shape = b.shape := by
  induction ws generalizing b with
  | nil => rfl
  | cons w ws ih => rw [putAll_cons, ih, shape_put]

theorem write_of_inside (hb : b.shape.Counted) {ws : List ((ℕ × ℕ) × F)}
    (h : ∀ w ∈ ws, b.shape.Inside w.1.1 w.1.2) :
    b.write ws = .ok (b.putAll (ws.map fun w => (b.shape.place w.1.1 w.1.2, w.2))) := by
  induction ws generalizing b with
  | nil => rfl
  | cons w ws ih =>
    obtain ⟨hw, hws⟩ := List.forall_mem_cons.mp h
    rw [write, List.foldlM_cons, set_of_inside hb hw]
    exact ih (b := b.put _ _) hb hws

theorem setColumnMajor_eq (hb : b.shape.Counted) (values : List F) : b.setColumnMajor values =
    .ok (b.putAll ((b.shape.columnMajor.map fun p => b.shape.place p.1 p.2).zip values)) := by
  have hinside : ∀ w ∈ b.shape.columnMajor.zip values, b.shape.Inside w.1.1 w.1.2 := fun w hw =>
    mem_columnMajor (List.of_mem_zip hw).1
  rw [setColumnMajor, write_of_inside hb hinside, List.zip_map_left]
  rfl

theorem setRowMajor_eq (hb : b.shape.Counted) (values : List F) : b.setRowMajor values =
    .ok (b.putAll ((b.shape.rowMajor.map fun p => b.shape.place p.1 p.2).zip values)) := by
  have hinside : ∀ w ∈ b.shape.rowMajor.zip values, b.shape.Inside w.1.1 w.1.2 := fun w hw =>
    mem_rowMajor (List.of_mem_zip hw).1
  rw [setRowMajor, write_of_inside hb hinside, List.zip_map_left]
  rfl

end Runs

section Calls
variable {σ : Type} {f : ℕ → ℕ → σ → F × σ}

/-- The answers of one call for each position, with the state after the last. -/
def answers (f : ℕ → ℕ → σ → F × σ) : List (ℕ × ℕ) → σ → List F × σ
  | [], state => ([], state)
  | p :: ps, state =>
    let first := f p.1 p.2 state
    let rest := answers f ps first.2
    (first.1 :: rest.1, rest.2)

/-- A function that keeps, beside its state, a list of all calls and of what it answered to them. -/
def logged (f : ℕ → ℕ → σ → F × σ) (r c : ℕ) (state : σ × List ((ℕ × ℕ) × F)) : F × σ × List ((ℕ × ℕ) × F) :=
  let call := f r c state.1
  (call.1, call.2, state.2 ++ [((r, c), call.1)])

theorem length_answers (ps : List (ℕ × ℕ)) (state : σ) : (answers f ps state).1.length = ps.length := by
  induction ps generalizing state with
  | nil => rfl
  | cons p ps ih => exact congrArg (· + 1) (ih _)

/-- The list grows by one call for each position. -/
theorem answers_logged (ps : List (ℕ × ℕ)) (state : σ) (log : List ((ℕ × ℕ) × F)) :
    answers (logged f) ps (state, log) =
      ((answers f ps state).1, (answers f ps state).2, log ++ ps.zip (answers f ps state).1) := by
  induction ps generalizing state log with
  | nil => simp [answers]
  | cons p ps ih => simp [answers, logged, ih]

theorem setByCalls_eq (hb : b.shape.Counted) (f : ℕ → ℕ → σ → F × σ) (state : σ) :
    b.setByCalls f state = .ok (b.putAll ((List.range b.shape.cellCount).zip (answers f b.shape.positions state).1),
      (answers f b.shape.positions state).2) := by
  suffices h : ∀ (ps : List (ℕ × ℕ)) (b : MatrixBuilder F) (state : σ), b.shape.Counted →
      (∀ p ∈ ps, b.shape.Inside p.1 p.2) → ps.foldlM (setByCall f) (b, state) =
        .ok (b.putAll ((ps.map fun p => b.shape.place p.1 p.2).zip (answers f ps state).1), (answers f ps state).2) by
    rw [← map_place_positions]
    exact h b.shape.positions b state hb fun p hp => mem_positions hp
  intro ps
  induction ps with
  | nil => intro b state _ _; rfl
  | cons p ps ih =>
    intro b state hb hps
    obtain ⟨hp, hps⟩ := List.forall_mem_cons.mp hps
    rw [List.foldlM_cons, setByCall, set_of_inside hb hp]
    exact ih (b.put _ _) (f p.1 p.2 state).2 hb hps

theorem answers_counter (f : ℕ → ℕ → ℕ → F) (ps : List (ℕ × ℕ)) (k : ℕ) :
    (answers (fun r c k => (f k r c, k + 1)) ps k).1 = ps.mapIdx fun j p => f (k + j) p.1 p.2 := by
  induction ps generalizing k with
  | nil => rfl
  | cons p ps ih =>
    rw [List.mapIdx_cons]
    refine congrArg (f k p.1 p.2 :: ·) ((ih (k + 1)).trans ?_)
    simp only [Nat.add_right_comm, Nat.add_assoc]

/-- A function that answers by the number of the call keeps that number for its state. -/
theorem setByFunction_eq_setByCalls (hb : b.shape.Counted) (f : ℕ → ℕ → ℕ → F) :
    b.setByFunction f = Prod.fst <$> b.setByCalls (fun r c k => (f k r c, k + 1)) 0 := by
  have hinside : ∀ w ∈ b.shape.positions.mapIdx fun k p => (p, f k p.1 p.2), b.shape.Inside w.1.1 w.1.2 := by
    intro w hw
    obtain ⟨k, hk, rfl⟩ := List.mem_mapIdx.mp hw
    exact mem_positions (List.getElem_mem hk)
  have hwrites : (List.range b.shape.cellCount).zip (answers (fun r c k => (f k r c, k + 1)) b.shape.positions 0).1 =
      (b.shape.positions.mapIdx fun k p => (p, f k p.1 p.2)).map fun w => (b.shape.place w.1.1 w.1.2, w.2) := by
    rw [answers_counter, ← map_place_positions]
    refine List.ext_getElem (by simp) fun k hk hk' => ?_
    simp
  rw [setByFunction, write_of_inside hb hinside, setByCalls_eq hb, hwrites]
  rfl

end Calls

section Reading
variable [Arith F]

theorem coord_put_self (h : i < b.shape.cellCount) (x : F) : coord (b.put i x).cells i = x :=
  Kernel.coord_setIfInBounds_self (b.size_cells.symm ▸ h) x

theorem coord_put_of_ne {j : ℕ} (h : i ≠ j) (x : F) : coord (b.put i x).cells j = coord b.cells j :=
  Kernel.coord_setIfInBounds_of_ne h x

theorem get_of_inside (hb : b.shape.Counted) (h : b.shape.Inside r c) :
    b.get r c = .ok (coord b.cells (b.shape.place r c)) := by
  have hlt : b.shape.place r c < b.cells.size := b.size_cells.symm ▸ place_lt_cellCount h
  rw [get, cell_of_inside hb h, coord_of_lt hlt]
  exact dif_pos hlt

/-- A write changes the position that is written and its mirror image, and nothing else. -/
theorem get_put {r' c' : ℕ} (hb : b.shape.Counted) (h : b.shape.Inside r c) (h' : b.shape.Inside r' c') (x : F) :
    (b.shape.Shares (r, c) (r', c') → (b.put (b.shape.place r c) x).get r' c' = .ok x) ∧
    (¬b.shape.Shares (r, c) (r', c') → (b.put (b.shape.place r c) x).get r' c' = b.get r' c') := by
  have hget : (b.put (b.shape.place r c) x).get r' c' =
      .ok (coord (b.put (b.shape.place r c) x).cells (b.shape.place r' c')) := get_of_inside hb h'
  constructor
  · intro hshares
    have hplace := (place_eq_iff h h').mpr hshares
    rw [hget, ← hplace, coord_put_self (place_lt_cellCount h)]
  · intro hshares
    have hplace := mt (place_eq_iff h h').mp hshares
    rw [hget, get_of_inside hb h', coord_put_of_ne hplace]

/-- A cell that no write reaches keeps its value. -/
theorem coord_putAll_of_unwritten {cells : List ℕ} {values : List F}
    (h : ∀ k, cells[k]? = some i → values.length ≤ k) :
    coord (b.putAll (cells.zip values)).cells i = coord b.cells i := by
  induction cells generalizing b values with
  | nil => rfl
  | cons j cells ih =>
    cases values with
    | nil => rfl
    | cons y values =>
      have hne : j ≠ i := by
        rintro rfl
        exact absurd (h 0 rfl) (Nat.not_succ_le_zero _)
      have hrest : ∀ k, cells[k]? = some i → values.length ≤ k := fun k hk => Nat.le_of_succ_le_succ (h (k + 1) hk)
      rw [List.zip_cons_cons, putAll_cons, ih hrest, coord_put_of_ne hne]

/-- Of several writes to one cell the last stays. -/
theorem coord_putAll_of_last {cells : List ℕ} {values : List F} {k : ℕ} (hi : i < b.shape.cellCount)
    (hcell : cells[k]? = some i) (hvalue : values[k]? = some x)
    (hlast : ∀ j, k < j → cells[j]? = some i → values.length ≤ j) :
    coord (b.putAll (cells.zip values)).cells i = x := by
  induction cells generalizing b values k with
  | nil => cases hcell
  | cons j cells ih =>
    cases values with
    | nil => cases hvalue
    | cons y values =>
      have hrest : ∀ l, k < l + 1 → cells[l]? = some i → values.length ≤ l := fun l hl hk =>
        Nat.le_of_succ_le_succ (hlast (l + 1) hl hk)
      rw [List.zip_cons_cons, putAll_cons]
      cases k with
      | zero =>
        obtain rfl : j = i := Option.some.inj hcell
        obtain rfl : y = x := Option.some.inj hvalue
        rw [coord_putAll_of_unwritten fun l hl => hrest l (Nat.succ_pos l) hl]
        exact coord_put_self hi y
      | succ k => exact ih hi hcell hvalue fun l hl => hrest l (Nat.succ_lt_succ hl)

/-- Writes to all cells in their order leave just the values that are written. -/
theorem cells_putAll_range {values : List F} (h : values.length = b.shape.cellCount) :
    (b.putAll ((List.range b.shape.cellCount).zip values)).cells.toList = values := by
  have hsize : (b.putAll ((List.range b.shape.cellCount).zip values)).cells.size = b.shape.cellCount := by
    rw [size_cells, shape_putAll]
  refine List.ext_getElem (by rw [Array.length_toList, hsize, h]) fun i hi hi' => ?_
  have hlt : i < b.shape.cellCount := h ▸ hi'
  have hcell : (List.range b.shape.cellCount)[i]? = some i := List.getElem?_range hlt
  rw [Array.getElem_toList, ← coord_of_lt]
  refine coord_putAll_of_last hlt hcell (List.getElem?_eq_getElem hi') ?_
  intro j hij hj
  obtain ⟨hj, hji⟩ := List.getElem?_eq_some_iff.mp hj
  rw [List.getElem_range] at hji
  omega

/-- A function is called once for each cell, in the order of the cells, whatever state it keeps. -/
theorem exists_setByCalls {σ : Type} (hb : b.shape.Counted) (f : ℕ → ℕ → σ → F × σ) (start : σ) :
    ∃ b' stop calls, b.setByCalls f start = .ok (b', stop) ∧
      b.setByCalls (logged f) (start, []) = .ok (b', stop, calls) ∧ calls.length = b.shape.cellCount ∧
      ∀ k r c x, calls[k]? = some ((r, c), x) → b.shape.cell r c = .ok k ∧ b'.cells[k]? = some x := by
  have hlength : (answers f b.shape.positions start).1.length = b.shape.cellCount := by
    rw [length_answers, length_positions]
  have hlogged := setByCalls_eq hb (logged f) (start, [])
  rw [answers_logged, List.nil_append] at hlogged
  refine ⟨_, _, _, setByCalls_eq hb f start, hlogged, ?_, ?_⟩
  · rw [List.length_zip, hlength, length_positions, min_self]
  · intro k r c x hcall
    obtain ⟨hposition, hanswer⟩ := List.getElem?_zip_eq_some.mp hcall
    constructor
    · have hplace := congrArg (·[k]?) (map_place_positions b.shape)
      simp only [List.getElem?_map, hposition, Option.map_some] at hplace
      obtain ⟨_, hk⟩ := List.getElem?_eq_some_iff.mp hplace.symm
      rw [List.getElem_range] at hk
      exact (cell_eq_ok_iff hb).mpr ⟨mem_positions (List.mem_of_getElem? hposition), hk.symm⟩
    · rw [← Array.getElem?_toList, cells_putAll_range hlength]
      exact hanswer

end Reading

end BlockElimination.MatrixBuilder
