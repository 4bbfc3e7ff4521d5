import BlockElimination.MatrixBuilder
import BlockElimination.Proofs.Yields

/-!
# The cells of a builder

The place of a position among the cells is computed here without a range of sizes. Every cell is the place of a
position, and two positions have one place just if they are the same or, in a symmetric matrix, mirror images. Wherever
the number of cells is in range, so is every place and every size on the way to it.
-/
namespace BlockElimination

namespace Shape
variable {s : Shape} {r c r' c' n : ℕ}

def Inside (s : Shape) (r c : ℕ) : Prop := r < s.rows ∧ c < s.cols

/-- The positions are the same or, in a symmetric matrix, mirror images. -/
def Shares : Shape → ℕ × ℕ → ℕ × ℕ → Prop
  | general _ _, p, q => p = q
  | packed _, p, q => p = q ∨ p = q.swap

/-- The number of cells is in the range of sizes. -/
def Counted (s : Shape) : Prop := s.length = .ok s.cellCount

/-- The place of a position among the cells. -/
def place : Shape → ℕ → ℕ → ℕ
  | general m _, r, c => c * m + r
  | packed _, r, c => (packed (max r c)).cellCount + min r c

theorem place_packed_comm (n r c : ℕ) : (packed n).place r c = (packed n).place c r := by
  rw [place, place, max_comm, min_comm]

theorem cellCount_packed_succ (n : ℕ) : (packed (n + 1)).cellCount = (packed n).cellCount + (n + 1) := by
  have hnext : (n + 1) * (n + 1 + 1) = n * (n + 1) + (n + 1) * 2 := by ring
  rw [cellCount, cellCount, hnext, Nat.add_mul_div_right _ _ two_pos]

theorem cellCount_packed_mono {k : ℕ} (h : k ≤ n) : (packed k).cellCount ≤ (packed n).cellCount :=
  Nat.div_le_div_right (Nat.mul_le_mul h (Nat.succ_le_succ h))

/-- The places of column `c`, and of the row that mirrors it, lie between the cell counts of two sizes. -/
theorem place_packed_bounds (n r c : ℕ) : (packed (max r c)).cellCount ≤ (packed n).place r c ∧
    (packed n).place r c < (packed (max r c + 1)).cellCount := by
  rw [cellCount_packed_succ, place]
  omega

theorem max_eq_of_place_eq (h : (packed n).place r c = (packed n).place r' c') : max r c = max r' c' := by
  by_contra hne
  have hbounds := place_packed_bounds n r c
  have hbounds' := place_packed_bounds n r' c'
  rcases Nat.lt_or_gt_of_ne hne with hlt | hlt
  · have hmono : (packed (max r c + 1)).cellCount ≤ (packed (max r' c')).cellCount := cellCount_packed_mono hlt
    omega
  · have hmono : (packed (max r' c' + 1)).cellCount ≤ (packed (max r c)).cellCount := cellCount_packed_mono hlt
    omega

theorem place_lt_cellCount (h : s.Inside r c) : s.place r c < s.cellCount := by
  cases s with
  | general m n => exact Kernel.columnMajor_lt h.1 h.2
  | packed n =>
    have hbounds := place_packed_bounds n r c
    have hmono := cellCount_packed_mono (Nat.succ_le_of_lt (max_lt h.1 h.2))
    exact hbounds.2.trans_le hmono

/-- Positions of one place are the same or, in a symmetric matrix, mirror images. -/
theorem place_eq_iff (h : s.Inside r c) (h' : s.Inside r' c') :
    s.place r c = s.place r' c' ↔ s.Shares (r, c) (r', c') := by
  cases s with
  | general m n =>
    constructor
    · intro hplace
      have hplace : c * m + r = c' * m + r' := hplace
      have hrow : r = r' := by
        have hmod := congrArg (· % m) hplace
        simpa only [Kernel.columnMajor_mod (show r < m from h.1), Kernel.columnMajor_mod (show r' < m from h'.1)]
          using hmod
      have hcol : c = c' := by
        have hdiv := congrArg (· / m) hplace
        simpa only [Kernel.columnMajor_div (show r < m from h.1), Kernel.columnMajor_div (show r' < m from h'.1)]
          using hdiv
      exact Prod.ext hrow hcol
    · intro hsame
      cases hsame
      rfl
  | packed n =>
    constructor
    · intro hplace
      have hmax := max_eq_of_place_eq hplace
      have hmin : min r c = min r' c' := by
        rw [place, place, hmax] at hplace
        omega
      have hcases : r = r' ∧ c = c' ∨ r = c' ∧ c = r' := by omega
      simpa [Shares] using hcases
    · rintro (hsame | hmirror)
      · cases hsame
        rfl
      · cases hmirror
        exact place_packed_comm n _ _

section Traversals

theorem mem_columnMajor {p : ℕ × ℕ} (h : p ∈ s.columnMajor) : s.Inside p.1 p.2 := by
  obtain ⟨k, hk, rfl⟩ := List.mem_map.mp h
  have hk : k < s.rows * s.cols := List.mem_range.mp hk
  exact ⟨Nat.mod_lt k (Nat.pos_of_mul_pos_right (Nat.zero_lt_of_lt hk)), Nat.div_lt_of_lt_mul hk⟩

theorem mem_rowMajor {p : ℕ × ℕ} (h : p ∈ s.rowMajor) : s.Inside p.1 p.2 := by
  obtain ⟨k, hk, rfl⟩ := List.mem_map.mp h
  have hk : k < s.cols * s.rows := Nat.mul_comm _ _ ▸ List.mem_range.mp hk
  exact ⟨Nat.div_lt_of_lt_mul hk, Nat.mod_lt k (Nat.pos_of_mul_pos_right (Nat.zero_lt_of_lt hk))⟩

theorem mem_positions {p : ℕ × ℕ} (h : p ∈ s.positions) : s.Inside p.1 p.2 := by
  cases s with
  | general m n => exact mem_columnMajor h
  | packed n =>
    obtain ⟨c, hc, hp⟩ := List.mem_flatMap.mp h
    obtain ⟨r, hr, rfl⟩ := List.mem_map.mp hp
    have hc : c < n := List.mem_range.mp hc
    have hr : r < c + 1 := List.mem_range.mp hr
    exact ⟨show r < n by omega, hc⟩

/-- The positions that are set one by one have the places `0, 1, 2, …` of all cells. -/
theorem map_place_positions (s : Shape) : (s.positions.map fun p => s.place p.1 p.2) = List.range s.cellCount := by
  cases s with
  | general m n =>
    have hplace : ∀ k ∈ List.range (m * n), (general m n).place (k % m) (k / m) = k := fun k _ =>
      Nat.div_add_mod' k m
    simpa [positions, columnMajor, rows, cols, cellCount, Function.comp_def] using
      (List.map_congr_left hplace).trans (List.map_id _)
  | packed n =>
    induction n with
    | zero => rfl
    | succ n ih =>
      have hplace : ∀ r ∈ List.range (n + 1), (packed n).place r n = (packed n).cellCount + r := by
        intro r hr
        have hr : r ≤ n := Nat.le_of_lt_succ (List.mem_range.mp hr)
        rw [place, max_eq_right hr, min_eq_left hr]
      have hpositions : (packed (n + 1)).positions =
          (packed n).positions ++ (List.range (n + 1)).map fun r => (r, n) := by
        simp [positions, List.range_succ]
      have hlast : ((List.range (n + 1)).map fun r => (r, n)).map (fun p => (packed n).place p.1 p.2) =
          (List.range (n + 1)).map ((packed n).cellCount + ·) := by
        rw [List.map_map]
        exact List.map_congr_left hplace
      have hrange : List.range ((packed n).cellCount + (n + 1)) = List.range (packed n).cellCount ++
          (List.range (n + 1)).map ((packed n).cellCount + ·) := List.range_add
      rw [hpositions, List.map_append, cellCount_packed_succ, hrange]
      exact congrArg₂ (· ++ ·) ih hlast

theorem length_positions (s : Shape) : s.positions.length = s.cellCount := by
  rw [← List.length_range (n := s.cellCount), ← map_place_positions, List.length_map]

/-- Every cell is the place of a position. -/
theorem exists_place {i : ℕ} (h : i < s.cellCount) : ∃ r c, s.Inside r c ∧ s.place r c = i := by
  have hi : i ∈ s.positions.map fun p => s.place p.1 p.2 := by
    rw [map_place_positions]
    exact List.mem_range.mpr h
  obtain ⟨p, hp, hplace⟩ := List.mem_map.mp hi
  exact ⟨p.1, p.2, mem_positions hp, hplace⟩

end Traversals

section Ranges

theorem counted_of_length {k : ℕ} (h : s.length = .ok k) : s.Counted := by
  rw [Counted, ← length_eq_ok h, h]

theorem Counted.packed_lt_bound (hs : (packed n).Counted) : n + 1 < Size.bound ∧ n * (n + 1) < Size.bound := by
  obtain ⟨next, hnext, hs⟩ := exists_of_bind_eq_ok hs
  obtain ⟨twice, htwice, -⟩ := exists_of_bind_eq_ok hs
  obtain ⟨hlt, rfl⟩ := Size.add_eq_ok_iff.mp hnext
  exact ⟨hlt, (Size.mul_eq_ok_iff.mp htwice).1⟩

theorem Counted.rows_mul_cols_lt (hs : s.Counted) : s.rows * s.cols < Size.bound := by
  cases s with
  | general m n => exact (Size.mul_eq_ok_iff.mp hs).1
  | packed n =>
    have hle : n * n ≤ n * (n + 1) := Nat.mul_le_mul_left n n.le_succ
    exact hle.trans_lt hs.packed_lt_bound.2

/-- Where the number of cells is in range, no size on the way to a cell leaves it. -/
theorem cell_of_inside (hs : s.Counted) (h : s.Inside r c) : s.cell r c = .ok (s.place r c) := by
  have hlt := place_lt_cellCount h
  cases s with
  | general m n =>
    have hcount : m * n < Size.bound := (Size.mul_eq_ok_iff.mp hs).1
    have hplace : c * m + r < m * n := hlt
    have hstart : Size.mul c m = .ok (c * m) := if_pos (by omega)
    have hsum : Size.add (c * m) r = .ok (c * m + r) := if_pos (by omega)
    rw [cell, if_pos (show r < (general m n).rows ∧ c < (general m n).cols from h)]
    simp only [hstart]
    exact hsum
  | packed n =>
    obtain ⟨hnext, htwice⟩ := hs.packed_lt_bound
    have hmax : max r c < n := max_lt h.1 h.2
    have hmul : max r c * (max r c + 1) ≤ n * (n + 1) := Nat.mul_le_mul hmax.le (by omega)
    have hsum : max r c * (max r c + 1) / 2 + min r c < n * (n + 1) / 2 := hlt
    have hnext' : Size.add (max r c) 1 = .ok (max r c + 1) := if_pos (by omega)
    have htwice' : Size.mul (max r c) (max r c + 1) = .ok (max r c * (max r c + 1)) := if_pos (by omega)
    have hsum' : Size.add (max r c * (max r c + 1) / 2) (min r c) = .ok ((packed n).place r c) := if_pos (by omega)
    rw [cell, if_pos (show r < (packed n).rows ∧ c < (packed n).cols from h)]
    simp only [hnext', bind, Except.bind, htwice']
    exact hsum'

theorem cell_of_not_inside (h : ¬s.Inside r c) : s.cell r c = .error .outOfRange := if_neg h

theorem cell_eq_ok_iff (hs : s.Counted) {i : ℕ} : s.cell r c = .ok i ↔ s.Inside r c ∧ s.place r c = i := by
  by_cases h : s.Inside r c
  · rw [cell_of_inside hs h, Except.ok.injEq]
    exact (and_iff_right h).symm
  · rw [cell_of_not_inside h]
    constructor
    · intro hcell
      cases hcell
    · rintro ⟨hinside, -⟩
      exact absurd hinside h

theorem cell_ne_overflow (hs : s.Counted) (r c : ℕ) : s.cell r c ≠ .error .overflow := by
  intro hfault
  by_cases h : s.Inside r c
  · cases (cell_of_inside hs h).symm.trans hfault
  · cases (cell_of_not_inside h).symm.trans hfault

/-- The positions inside address all cells and no others. -/
theorem exists_cell_iff (hs : s.Counted) {i : ℕ} : (∃ r c, s.cell r c = .ok i) ↔ i < s.cellCount := by
  simp only [cell_eq_ok_iff hs]
  constructor
  · rintro ⟨r, c, hinside, rfl⟩
    exact place_lt_cellCount hinside
  · exact exists_place

theorem cell_eq_cell_iff (hs : s.Counted) (h : s.Inside r c) (h' : s.Inside r' c') :
    s.cell r c = s.cell r' c' ↔ s.Shares (r, c) (r', c') := by
  rw [cell_of_inside hs h, cell_of_inside hs h', Except.ok.injEq, place_eq_iff h h']

end Ranges

end Shape

end BlockElimination
