import BlockElimination.Proofs.MatrixBuilder.Reachable

/-!
# Setting a builder from a list

Values are set line by line until they run out, which ends a line and leaves nothing for the next. That is one pass over
the positions in their order, and a list of any length will do. In a general matrix every position is met once. In a
symmetric one every cell off the diagonal is met twice, for a position and for its mirror image, and the order of
these two is the same in both passes: what stays is the value for the position on the right of the diagonal in columns,
or below it in rows.
-/
namespace BlockElimination

section Lines
variable {α : Type} {m n j r c : ℕ}

theorem getElem?_map_range {f : ℕ → α} {a : α} : ((List.range n).map f)[j]? = some a ↔ j < n ∧ f j = a := by
  rw [List.getElem?_map, Option.map_eq_some_iff]
  constructor
  · rintro ⟨k, hk, rfl⟩
    obtain ⟨hlt, hjk⟩ := List.getElem?_eq_some_iff.mp hk
    rw [List.getElem_range] at hjk
    rw [List.length_range] at hlt
    exact ⟨hlt, congrArg f hjk⟩
  · rintro ⟨hlt, rfl⟩
    exact ⟨j, List.getElem?_range hlt, rfl⟩

/-- The line of `m` positions in which the position `j` lies, and its place in that line. -/
theorem mod_div_eq_iff : j < m * n ∧ (j % m = r ∧ j / m = c) ↔ (r < m ∧ c < n) ∧ j = c * m + r := by
  constructor
  · rintro ⟨hlt, rfl, rfl⟩
    have hrow : j % m < m := Nat.mod_lt j (Nat.pos_of_mul_pos_right (Nat.zero_lt_of_lt hlt))
    exact ⟨⟨hrow, Nat.div_lt_of_lt_mul hlt⟩, (Nat.div_add_mod' j m).symm⟩
  · rintro ⟨⟨hr, hc⟩, rfl⟩
    exact ⟨Kernel.columnMajor_lt hr hc, Kernel.columnMajor_mod hr c, Kernel.columnMajor_div hr c⟩

/-- A range of `n` lines of `m` positions each. -/
theorem map_range_mul (m n : ℕ) (f : ℕ → ℕ → α) : ((List.range (m * n)).map fun p => f (p % m) (p / m)) =
    ((List.range n).map fun c => (List.range m).map fun r => f r c).flatten := by
  induction n with
  | zero => rfl
  | succ n ih =>
    have hline : ∀ r ∈ List.range m, f ((m * n + r) % m) ((m * n + r) / m) = f r n := by
      intro r hr
      have hr : r < m := List.mem_range.mp hr
      rw [Nat.mul_comm m n, Kernel.columnMajor_mod hr, Kernel.columnMajor_div hr]
    rw [Nat.mul_succ, List.range_add, List.map_append, ih, List.map_map, List.range_succ, List.map_append,
      List.flatten_append]
    refine congrArg _ ?_
    simpa using List.map_congr_left hline

theorem zip_append_drop {β : Type} (l l' : List α) (values : List β) :
    (l ++ l').zip values = l.zip values ++ l'.zip (values.drop l.length) := by
  induction l generalizing values with
  | nil => rfl
  | cons a l ih =>
    cases values with
    | nil => simp
    | cons x values => exact congrArg ((a, x) :: ·) (ih values)

end Lines

namespace Shape
variable {s : Shape} {r c j : ℕ}

theorem getElem?_columnMajor : s.columnMajor[j]? = some (r, c) ↔ s.Inside r c ∧ j = c * s.rows + r := by
  rw [columnMajor, getElem?_map_range, Prod.mk.injEq]
  exact mod_div_eq_iff

theorem getElem?_rowMajor : s.rowMajor[j]? = some (r, c) ↔ s.Inside r c ∧ j = r * s.cols + c := by
  rw [rowMajor, getElem?_map_range, Prod.mk.injEq, Nat.mul_comm, and_comm (a := j / s.cols = r), mod_div_eq_iff,
    and_comm (a := c < s.cols)]
  exact Iff.rfl

/-- The columns one after the other, each from its top. -/
theorem columnMajor_eq_flatten (s : Shape) :
    s.columnMajor = ((List.range s.cols).map fun c => (List.range s.rows).map fun r => (r, c)).flatten :=
  map_range_mul s.rows s.cols fun r c => (r, c)

/-- The rows one after the other, each from its left end. -/
theorem rowMajor_eq_flatten (s : Shape) :
    s.rowMajor = ((List.range s.rows).map fun r => (List.range s.cols).map fun c => (r, c)).flatten := by
  rw [rowMajor, Nat.mul_comm]
  exact map_range_mul s.cols s.rows fun c r => (r, c)

/-- A traversal meets the position, or its mirror image in a symmetric matrix, as its `j`-th. -/
def Meets (s : Shape) (ps : List (ℕ × ℕ)) (r c j : ℕ) : Prop := ∃ p, ps[j]? = some p ∧ s.Shares p (r, c)

theorem getElem?_map_place {ps : List (ℕ × ℕ)} (hps : ∀ p ∈ ps, s.Inside p.1 p.2) (h : s.Inside r c) :
    (ps.map fun p => s.place p.1 p.2)[j]? = some (s.place r c) ↔ s.Meets ps r c j := by
  rw [List.getElem?_map, Option.map_eq_some_iff]
  refine exists_congr fun p => and_congr_right fun hp => ?_
  exact place_eq_iff (hps p (List.mem_of_getElem? hp)) h

theorem meets_columnMajor_general {m n : ℕ} (h : (general m n).Inside r c) :
    (general m n).Meets (general m n).columnMajor r c j ↔ j = c * m + r := by
  constructor
  · rintro ⟨p, hp, rfl⟩
    exact (getElem?_columnMajor.mp hp).2
  · intro hj
    exact ⟨(r, c), getElem?_columnMajor.mpr ⟨h, hj⟩, rfl⟩

theorem meets_rowMajor_general {m n : ℕ} (h : (general m n).Inside r c) :
    (general m n).Meets (general m n).rowMajor r c j ↔ j = r * n + c := by
  constructor
  · rintro ⟨p, hp, rfl⟩
    exact (getElem?_rowMajor.mp hp).2
  · intro hj
    exact ⟨(r, c), getElem?_rowMajor.mpr ⟨h, hj⟩, rfl⟩

/-- In a symmetric matrix the columns meet the mirror image as well. -/
theorem meets_columnMajor_packed {n : ℕ} (h : (packed n).Inside r c) :
    (packed n).Meets (packed n).columnMajor r c j ↔ j = r * n + c ∨ j = c * n + r := by
  constructor
  · rintro ⟨p, hp, rfl | rfl⟩
    · exact .inr (getElem?_columnMajor.mp hp).2
    · exact .inl (getElem?_columnMajor.mp hp).2
  · rintro (hj | hj)
    · exact ⟨(c, r), getElem?_columnMajor.mpr ⟨h.symm, hj⟩, .inr rfl⟩
    · exact ⟨(r, c), getElem?_columnMajor.mpr ⟨h, hj⟩, .inl rfl⟩

/-- The rows of a symmetric matrix go to the same cells as its columns. -/
theorem map_place_rowMajor_packed (n : ℕ) : ((packed n).rowMajor.map fun p => (packed n).place p.1 p.2) =
    (packed n).columnMajor.map fun p => (packed n).place p.1 p.2 := by
  rw [rowMajor, columnMajor, List.map_map, List.map_map]
  exact List.map_congr_left fun k _ => place_packed_comm n _ _

end Shape

namespace MatrixBuilder

open Shape

variable {F : Type} {b : MatrixBuilder F}

section Lines

theorem write_append (b : MatrixBuilder F) (first second : List ((ℕ × ℕ) × F)) :
    b.write (first ++ second) = b.write first >>= fun b' => b'.write second :=
  List.foldlM_append

/-- Sets the positions of one line until the values run out, and answers with the values that are left. -/
def setLine : List (ℕ × ℕ) → MatrixBuilder F × List F → Except Fault (MatrixBuilder F × List F)
  | [], state => .ok state
  | _ :: _, (b, []) => .ok (b, [])
  | p :: line, (b, x :: values) => do
    let b ← b.set p.1 p.2 x
    setLine line (b, values)

/-- Sets one line after the other. A line that finds no value left sets nothing. -/
def setLines (b : MatrixBuilder F) (lines : List (List (ℕ × ℕ))) (values : List F) :
    Except Fault (MatrixBuilder F × List F) :=
  lines.foldlM (fun state line => setLine line state) (b, values)

theorem setLine_eq (line : List (ℕ × ℕ)) (b : MatrixBuilder F) (values : List F) :
    setLine line (b, values) = (fun b' => (b', values.drop line.length)) <$> b.write (line.zip values) := by
  induction line generalizing b values with
  | nil => rfl
  | cons p line ih =>
    cases values with
    | nil => rfl
    | cons x values =>
      rw [setLine, List.zip_cons_cons, write, List.foldlM_cons]
      cases b.set p.1 p.2 x with
      | error f => rfl
      | ok b' => exact ih b' values

/-- Line after line, that is one pass over all positions. -/
theorem setLines_eq_write (b : MatrixBuilder F) (lines : List (List (ℕ × ℕ))) (values : List F) :
    Prod.fst <$> b.setLines lines values = b.write (lines.flatten.zip values) := by
  induction lines generalizing b values with
  | nil => rfl
  | cons line lines ih =>
    rw [setLines, List.foldlM_cons, setLine_eq, List.flatten_cons, zip_append_drop, write_append]
    cases b.write (line.zip values) with
    | error f => rfl
    | ok b' => exact ih b' (values.drop line.length)

/-- The loop over columns and rows, as it is written out. -/
theorem setColumnMajor_eq_setLines (b : MatrixBuilder F) (values : List F) :
    b.setColumnMajor values = Prod.fst <$> b.setLines
      ((List.range b.shape.cols).map fun c => (List.range b.shape.rows).map fun r => (r, c)) values := by
  rw [setLines_eq_write, ← columnMajor_eq_flatten]
  rfl

theorem setRowMajor_eq_setLines (b : MatrixBuilder F) (values : List F) :
    b.setRowMajor values = Prod.fst <$> b.setLines
      ((List.range b.shape.rows).map fun r => (List.range b.shape.cols).map fun c => (r, c)) values := by
  rw [setLines_eq_write, ← rowMajor_eq_flatten]
  rfl

end Lines

section Twice
variable [Arith F]

/-- Of two writes to a cell the later one stays, if there is a value for it, and else the earlier one. -/
theorem coord_putAll_of_two {cells : List ℕ} {values : List F} {i first last : ℕ} (hi : i < b.shape.cellCount)
    (hle : first ≤ last) (hcells : ∀ j, cells[j]? = some i ↔ j = first ∨ j = last) :
    coord (b.putAll (cells.zip values)).cells i = values.getD last (values.getD first (coord b.cells i)) := by
  have hfirst : cells[first]? = some i := (hcells first).mpr (.inl rfl)
  have hlast : cells[last]? = some i := (hcells last).mpr (.inr rfl)
  rw [List.getD_eq_getElem?_getD, List.getD_eq_getElem?_getD]
  cases hx : values[last]? with
  | some x =>
    refine coord_putAll_of_last hi hlast hx ?_
    intro j hj hcell
    rcases (hcells j).mp hcell with rfl | rfl <;> omega
  | none =>
    have hshort : values.length ≤ last := List.getElem?_eq_none_iff.mp hx
    cases hy : values[first]? with
    | some y =>
      refine coord_putAll_of_last hi hfirst hy ?_
      intro j hj hcell
      rcases (hcells j).mp hcell with rfl | rfl
      · omega
      · exact hshort
    | none =>
      have hshort' : values.length ≤ first := List.getElem?_eq_none_iff.mp hy
      refine coord_putAll_of_unwritten ?_
      intro j hcell
      rcases (hcells j).mp hcell with rfl | rfl
      · exact hshort'
      · exact hshort

/-- What a pass leaves at a position that it meets twice. -/
theorem get_putAll {ps : List (ℕ × ℕ)} {r c first last : ℕ} (hb : b.shape.Counted)
    (hps : ∀ p ∈ ps, b.shape.Inside p.1 p.2) (hinside : b.shape.Inside r c) (hle : first ≤ last)
    (hmeets : ∀ j, b.shape.Meets ps r c j ↔ j = first ∨ j = last) (values : List F) :
    ∃ x, b.get r c = .ok x ∧ (b.putAll ((ps.map fun p => b.shape.place p.1 p.2).zip values)).get r c =
      .ok (values.getD last (values.getD first x)) := by
  refine ⟨_, get_of_inside hb hinside, ?_⟩
  have hcells : ∀ j, (ps.map fun p => b.shape.place p.1 p.2)[j]? = some (b.shape.place r c) ↔ j = first ∨ j = last :=
    fun j => (getElem?_map_place hps hinside).trans (hmeets j)
  rw [get_of_inside (by rwa [shape_putAll]) (by rwa [shape_putAll]), shape_putAll,
    coord_putAll_of_two (place_lt_cellCount hinside) hle hcells]

/-- A position that a pass meets once is left with its value, if the list has one for it. -/
theorem get_putAll_of_once {ps : List (ℕ × ℕ)} {r c k : ℕ} (hb : b.shape.Counted)
    (hps : ∀ p ∈ ps, b.shape.Inside p.1 p.2) (hinside : b.shape.Inside r c)
    (hmeets : ∀ j, b.shape.Meets ps r c j ↔ j = k) (values : List F) :
    ∃ x, b.get r c = .ok x ∧ (b.putAll ((ps.map fun p => b.shape.place p.1 p.2).zip values)).get r c =
      .ok (values.getD k x) := by
  obtain ⟨x, hx, hget⟩ := get_putAll hb hps hinside le_rfl (fun j => (hmeets j).trans (or_self_iff).symm) values
  refine ⟨x, hx, hget.trans ?_⟩
  rw [List.getD_eq_getElem?_getD, List.getD_eq_getElem?_getD]
  cases values[k]? <;> rfl

end Twice

section Main
variable [Arith F]

/-- What a list of any length leaves in a builder. In a general matrix either setter leaves each value at its own
position and keeps the elements for which there is none. In a symmetric matrix both leave the same: of the two values for
an element the one that comes later in either order, which is the one for its position in the upper triangle, column by
column. -/
theorem Reachable.set_lists (h : b.Reachable) (values : List F) :
    (∀ m n, b.shape = .general m n →
      (∃ b', b.setColumnMajor values = .ok b' ∧ ∀ r < m, ∀ c < n, ∃ x, b.get r c = .ok x ∧
        b'.get r c = .ok (values.getD (c * m + r) x)) ∧
      ∃ b', b.setRowMajor values = .ok b' ∧ ∀ r < m, ∀ c < n, ∃ x, b.get r c = .ok x ∧
        b'.get r c = .ok (values.getD (r * n + c) x)) ∧
    ∀ n, b.shape = .packed n → ∃ b', b.setColumnMajor values = .ok b' ∧ b.setRowMajor values = .ok b' ∧
      ∀ r c, r ≤ c → c < n → ∃ x, b.get r c = .ok x ∧
        b'.get r c = .ok (values.getD (c * n + r) (values.getD (r * n + c) x)) := by
  have hb := h.counted
  have hcolumns : ∀ p ∈ b.shape.columnMajor, b.shape.Inside p.1 p.2 := fun p hp => mem_columnMajor hp
  have hrows : ∀ p ∈ b.shape.rowMajor, b.shape.Inside p.1 p.2 := fun p hp => mem_rowMajor hp
  constructor
  · intro m n hshape
    have hinside : ∀ r < m, ∀ c < n, (general m n).Inside r c := fun r hr c hc => ⟨hr, hc⟩
    constructor
    · refine ⟨_, setColumnMajor_eq hb values, fun r hr c hc => ?_⟩
      refine get_putAll_of_once hb hcolumns (hshape ▸ hinside r hr c hc) (fun j => ?_) values
      rw [hshape]
      exact meets_columnMajor_general (hinside r hr c hc)
    · refine ⟨_, setRowMajor_eq hb values, fun r hr c hc => ?_⟩
      refine get_putAll_of_once hb hrows (hshape ▸ hinside r hr c hc) (fun j => ?_) values
      rw [hshape]
      exact meets_rowMajor_general (hinside r hr c hc)
  · intro n hshape
    have hsame : b.setRowMajor values = b.setColumnMajor values := by
      rw [setRowMajor_eq hb, setColumnMajor_eq hb, hshape, map_place_rowMajor_packed]
    refine ⟨_, setColumnMajor_eq hb values, hsame.trans (setColumnMajor_eq hb values), fun r c hrc hc => ?_⟩
    have hinside : (packed n).Inside r c := ⟨hrc.trans_lt hc, hc⟩
    -- The position in the upper triangle comes later than its mirror image, or they are one.
    have horder : r * n + c ≤ c * n + r := by
      obtain ⟨d, rfl⟩ := Nat.exists_eq_add_of_le hrc
      have hd : d ≤ d * n := Nat.le_mul_of_pos_right d (Nat.zero_lt_of_lt hc)
      rw [Nat.add_mul]
      omega
    refine get_putAll hb hcolumns (hshape ▸ hinside) horder (fun j => ?_) values
    rw [hshape]
    exact meets_columnMajor_packed hinside

def blank : Except Fault (MatrixBuilder ℤ) := zero (.general 2 3)

theorem set_four_values :
    (∃ b b', blank = .ok b ∧ b.setRowMajor [7, 8, 9, 10] = .ok b' ∧
      b'.get 0 2 = .ok 9 ∧ b'.get 1 0 = .ok 10 ∧ b'.get 1 2 = b.get 1 2) ∧
    ∃ b b', scaledTriangle = .ok b ∧ b.setColumnMajor [7, 8, 9, 10] = .ok b' ∧ b.setRowMajor [7, 8, 9, 10] = .ok b' ∧
      b'.get 0 1 = .ok 10 ∧ b'.get 0 2 = .ok 9 ∧ b'.get 1 2 = b.get 1 2 := by
  constructor
  · obtain ⟨b, hb⟩ := exists_eq_ok (show blank.toBool = true by decide +kernel)
    have hshape : blank.map shape = .ok (.general 2 3) := by decide +kernel
    rw [hb] at hshape
    obtain ⟨-, b', hset, hread⟩ := ((Reachable.zero hb).set_lists [7, 8, 9, 10]).1 2 3 (Except.ok.inj hshape)
    obtain ⟨_, -, h02⟩ := hread 0 (by decide) 2 (by decide)
    obtain ⟨_, -, h10⟩ := hread 1 (by decide) 0 (by decide)
    obtain ⟨_, hold, h12⟩ := hread 1 (by decide) 2 (by decide)
    exact ⟨b, b', hb, hset, h02, h10, h12.trans hold.symm⟩
  · obtain ⟨b, hb, hreachable, hshape⟩ := exists_scaledTriangle
    obtain ⟨b', hcolumns, hrows, hread⟩ := (hreachable.set_lists [7, 8, 9, 10]).2 3 hshape
    obtain ⟨_, -, h01⟩ := hread 0 1 (by decide) (by decide)
    obtain ⟨_, -, h02⟩ := hread 0 2 (by decide) (by decide)
    obtain ⟨_, hold, h12⟩ := hread 1 2 (by decide) (by decide)
    exact ⟨b, b', hb, hcolumns, hrows, h01, h02, h12.trans hold.symm⟩

end Main

end MatrixBuilder

end BlockElimination
