import BlockElimination.Kernel.Workspace
import BlockElimination.Proofs.Kernel.SymmetricInverse

/-!
# Inversion in place does the same arithmetic

The workspace holds the columns of the decomposition below and on the diagonal, whatever it held before, so every entry
that is read has been written. Each loop of the solver is followed by one invariant on the coordinates it has passed.
Nothing here asks for a law of arithmetic: the two computations agree operation by operation.
-/
namespace BlockElimination.Kernel

open FactorColumns

section Loops
variable {α : Type} {f : ℕ → α → α} {a : α}

theorem fold_induction {P : ℕ → α → Prop} {n : ℕ} (start : P 0 a) (step : ∀ j < n, ∀ b, P j b → P (j + 1) (f j b)) :
    P n (Nat.fold n (fun j _ b => f j b) a) := by
  induction n with
  | zero => exact start
  | succ n ih =>
    rw [Nat.fold_succ]
    exact step n (by omega) _ (ih fun j hj => step j (by omega))

theorem foldRev_induction {P : ℕ → α → Prop} {n : ℕ} (start : P n a)
    (step : ∀ j < n, ∀ b, P (j + 1) b → P j (f j b)) : P 0 (Nat.foldRev n (fun j _ b => f j b) a) := by
  induction n generalizing a with
  | zero => exact start
  | succ n ih =>
    rw [Nat.foldRev_succ]
    exact ih (step n (by omega) _ start) fun j hj => step j (by omega)

theorem rel_bind {β α' β' : Type} {r : α → β → Prop} {r' : α' → β' → Prop} {o : Option α} {o' : Option β}
    {g : α → Option α'} {g' : β → Option β'} (h : Option.Rel r o o')
    (hg : ∀ a b, r a b → Option.Rel r' (g a) (g' b)) : Option.Rel r' (o >>= g) (o' >>= g') := by
  cases h with
  | some h => exact hg _ _ h
  | none => exact .none

end Loops

section Overwrite
variable {F : Type} {start len i : ℕ} {value : ℕ → Array F → F} {a : Array F}

theorem overwrite_succ : overwrite start (len + 1) value a =
    (overwrite start len value a).setIfInBounds (start + len) (value len (overwrite start len value a)) := by
  simp only [overwrite, Nat.fold_succ]

@[simp] theorem size_overwrite : (overwrite start len value a).size = a.size := by
  induction len with
  | zero => rfl
  | succ len ih => rw [overwrite_succ, Array.size_setIfInBounds, ih]

variable [Zero F]

theorem coord_setIfInBounds_self (h : i < a.size) (v : F) : coord (a.setIfInBounds i v) i = v := by
  simp [coord, h]

theorem coord_setIfInBounds_of_ne {j : ℕ} (h : i ≠ j) (v : F) : coord (a.setIfInBounds i v) j = coord a j := by
  simp [coord, Array.getD_eq_getD_getElem?, h]

theorem coord_overwrite_of_outside (h : i < start ∨ start + len ≤ i) :
    coord (overwrite start len value a) i = coord a i := by
  induction len with
  | zero => rfl
  | succ len ih => rw [overwrite_succ, coord_setIfInBounds_of_ne (by omega), ih (by omega)]

/-- Every value that is told from what has not been overwritten yet is the one that stands there at the end. -/
theorem coord_overwrite {f : ℕ → F} (hsize : start + len ≤ a.size)
    (hvalue : ∀ i < len, ∀ b, (∀ p, p < start ∨ start + i ≤ p → coord b p = coord a p) → value i b = f i)
    (hi : i < len) : coord (overwrite start len value a) (start + i) = f i := by
  induction len with
  | zero => omega
  | succ len ih =>
    rw [overwrite_succ]
    rcases Nat.lt_succ_iff_lt_or_eq.mp hi with hi | rfl
    · rw [coord_setIfInBounds_of_ne (by omega)]
      exact ih (by omega) (fun i hi => hvalue i (by omega)) hi
    · rw [coord_setIfInBounds_self (by rw [size_overwrite]; omega)]
      exact hvalue i (by omega) _ fun p hp => coord_overwrite_of_outside hp

theorem coord_overwrite_zero {f : ℕ → F} (hsize : len ≤ a.size)
    (hvalue : ∀ i < len, ∀ b, (∀ p, i ≤ p → coord b p = coord a p) → value i b = f i) (hi : i < len) :
    coord (overwrite 0 len value a) i = f i := by
  have hwritten : coord (overwrite 0 len value a) (0 + i) = f i :=
    coord_overwrite (by omega) (fun i hi b hb => hvalue i hi b fun p hp => hb p (by omega)) hi
  rwa [Nat.zero_add] at hwritten

end Overwrite

variable {F : Type} [Scalar F]

/-- The workspace holds the first `j` columns of a decomposition, below and on the diagonal. -/
structure Workspace.Holds (n j : ℕ) (cols : Array (FactorColumn F)) (w : Workspace F) : Prop where
  size_cols : cols.size = j
  size_pivots : w.pivots.size = n
  size_lower : w.lower.size = n * n
  pivot : ∀ k < j, coord w.pivots k = FactorColumns.pivot cols k
  lower : ∀ k < j, ∀ i < n, k ≤ i → storedEntry false n w.lower i k = FactorColumns.lower cols i k

namespace Workspace

theorem holds_zero {n : ℕ} {work : Array F} (hwork : n + n * n ≤ work.size) :
    (ofArray n work).clear.Holds n 0 #[] where
  size_cols := rfl
  size_pivots := by simp [ofArray, clear]; omega
  size_lower := by simp [ofArray, clear]; omega
  pivot k hk := by omega
  lower k hk := by omega

section Column
variable {n j i k : ℕ} {l : Array F} {below : ℕ → Array F → F}

theorem columnMajor_lt_start (hi : i < n) (hk : k < j) : k * n + i < j * n := by
  rw [Nat.mul_comm j]
  exact columnMajor_lt hi hk

theorem end_le_square (hj : j < n) : j * n + n ≤ n * n := by
  rw [← Nat.succ_mul]
  exact Nat.mul_le_mul_right n hj

/-- The columns before a written one are as they were. -/
theorem storedEntry_before (hk : k < j) (hi : i < n) (len : ℕ) :
    storedEntry false n (overwrite (j * n + (j + 1)) len below (l.setIfInBounds (j * n + j) 1)) i k =
      storedEntry false n l i k := by
  have hbefore : k * n + i < j * n := columnMajor_lt_start hi hk
  exact (coord_overwrite_of_outside (by omega)).trans (coord_setIfInBounds_of_ne (by omega) 1)

/-- A written column is told from those before it alone. -/
theorem storedEntry_written {column : ℕ → F} (hsize : l.size = n * n) (hj : j < n) (hdiag : column j = 1)
    (hbelow : ∀ p, j + 1 + p < n → ∀ b, (∀ k < j, ∀ i < n, storedEntry false n b i k = storedEntry false n l i k) →
      below p b = column (j + 1 + p)) (hi : i < n) (hji : j ≤ i) :
    storedEntry false n (overwrite (j * n + (j + 1)) (n - (j + 1)) below (l.setIfInBounds (j * n + j) 1)) i j =
      column i := by
  have hend : j * n + n ≤ n * n := end_le_square hj
  rcases Nat.eq_or_lt_of_le hji with rfl | hlt
  · rw [hdiag]
    exact (coord_overwrite_of_outside (by omega)).trans (coord_setIfInBounds_self (by omega) 1)
  · obtain ⟨p, rfl⟩ := Nat.exists_eq_add_of_le hlt
    have hwritten : coord (overwrite (j * n + (j + 1)) (n - (j + 1)) below (l.setIfInBounds (j * n + j) 1))
        (j * n + (j + 1) + p) = column (j + 1 + p) := by
      refine coord_overwrite (f := fun p => column (j + 1 + p)) ?_ (fun p hp b hb => ?_) (by omega)
      · rw [Array.size_setIfInBounds]
        omega
      · refine hbelow p (by omega) b fun k hk i hi => ?_
        have hbefore : k * n + i < j * n := columnMajor_lt_start hi hk
        exact (hb _ (.inl (by omega))).trans (coord_setIfInBounds_of_ne (by omega) 1)
    rwa [Nat.add_assoc] at hwritten

end Column

variable {n j : ℕ} {cols : Array (FactorColumn F)} {w : Workspace F}

theorem Holds.push (h : w.Holds n j cols) (hj : j < n) {d : F} {column : ℕ → F} {below : ℕ → Array F → F}
    (hdiag : column j = 1) (hbelow : ∀ p, j + 1 + p < n → ∀ b,
      (∀ k < j, ∀ i < n, storedEntry false n b i k = storedEntry false n w.lower i k) →
        below p b = column (j + 1 + p)) :
    Holds n (j + 1) (cols.push ⟨d, tabulate n column⟩) ⟨w.pivots.setIfInBounds j d,
      overwrite (j * n + (j + 1)) (n - (j + 1)) below (w.lower.setIfInBounds (j * n + j) 1)⟩ := by
  obtain rfl := h.size_cols
  constructor
  · simp
  · simpa using h.size_pivots
  · simpa using h.size_lower
  · intro k hk
    rcases Nat.lt_succ_iff_lt_or_eq.mp hk with hk | rfl
    · rw [pivot_push_of_lt hk, coord_setIfInBounds_of_ne (by omega), h.pivot k hk]
    · rw [pivot_push_self, coord_setIfInBounds_self (by rw [h.size_pivots]; exact hj)]
  · intro k hk i hi hki
    rcases Nat.lt_succ_iff_lt_or_eq.mp hk with hk | rfl
    · rw [lower_push_of_lt hk, ← h.lower k hk i hi hki, storedEntry_before hk hi]
    · rw [lower_push_self, coord_tabulate, if_pos hi, storedEntry_written h.size_lower hj hdiag hbelow hi hki]

/-- A column is computed alike from the columns and from the workspace, and fails alike. -/
theorem Holds.factorColumn (h : w.Holds n j cols) (hj : j < n) (mat : Array F) (eps : F) :
    Option.Rel (fun c => Holds n (j + 1) (cols.push c))
      (Kernel.factorColumn n (storedEntry false n mat) eps cols j) (w.factorColumn n mat eps j) := by
  have hpivot : (descendingFrom (storedEntry false n mat j j) j fun k =>
      storedEntry false n w.lower j k * storedEntry false n w.lower j k * coord w.pivots k) =
        descendingFrom (storedEntry false n mat j j) j fun k =>
          FactorColumns.lower cols j k * FactorColumns.lower cols j k * FactorColumns.pivot cols k :=
    descendingFrom_congr rfl fun k hk => by rw [h.lower k hk j hj hk.le, h.pivot k hk]
  rw [Kernel.factorColumn, Workspace.factorColumn]
  dsimp only
  -- Both runs branch on the pivot, so it has to be one expression before the cases are split.
  rw [hpivot]
  split
  case isTrue => exact .none
  case isFalse =>
    refine .some (h.push hj (by simp) fun p hp b hb => ?_)
    rw [if_neg (by omega), if_neg (by omega)]
    congr 1
    refine descendingFrom_congr rfl fun k hk => ?_
    rw [hb k hk _ hp, hb k hk j hj, h.lower k hk _ hp (by omega), h.lower k hk j hj hk.le,
      coord_setIfInBounds_of_ne (by omega), h.pivot k hk]

/-- The decomposition in a workspace is the decomposition. -/
theorem Holds.decompose (h : w.Holds n 0 #[]) (mat : Array F) (eps : F) (hj : j ≤ n) :
    Option.Rel (Holds n j) (factorColumns n (storedEntry false n mat) eps j) (w.decompose n mat eps j) := by
  induction j with
  | zero => exact .some h
  | succ j ih =>
    refine rel_bind (ih (Nat.le_of_succ_le hj)) fun cols w hprev => ?_
    rw [← bind_pure (w.factorColumn n mat eps j)]
    exact rel_bind (hprev.factorColumn hj mat eps) fun c w hnext => .some hnext

variable {x : Array F} {e : ℕ → F}

/-- What is left of a right side after the columns before `j`. The columns after coordinate `i` do not reach it, so the
terms that have been taken away are those before `min i j`. -/
def Cleared (n : ℕ) (cols : Array (FactorColumn F)) (e : ℕ → F) (j : ℕ) (x : Array F) : Prop :=
  x.size = n ∧ ∀ i < n, coord x i =
    descendingFrom (e i) (min i j) fun k => FactorColumns.lower cols i k * coord (Kernel.solveLower cols e n) k

theorem Holds.cleared_clearBelow (h : w.Holds n n cols) (hj : j < n) (hx : Cleared n cols e j x) :
    Cleared n cols e (j + 1) (w.clearBelow n j x) := by
  obtain ⟨hsize, hx⟩ := hx
  have hxj : coord x j = coord (Kernel.solveLower cols e n) j := by
    rw [hx j hj, Nat.min_self, coord_solveLower cols e hj]
  refine ⟨by rw [clearBelow, size_overwrite, hsize], fun i hi => ?_⟩
  rw [clearBelow]
  rcases Nat.lt_or_ge j i with hji | hij
  · obtain ⟨p, rfl⟩ := Nat.exists_eq_add_of_le hji
    rw [coord_overwrite (f := fun p => coord x (j + 1 + p) - storedEntry false n w.lower (j + 1 + p) j * coord x j)
      (by omega) (fun p hp b hb => by rw [hb _ (.inr le_rfl)]) (by omega)]
    rw [hx _ hi, hxj, h.lower j hj _ hi (by omega), Nat.min_eq_right (by omega), Nat.min_eq_right hji, descendingFrom]
  · rw [coord_overwrite_of_outside (.inl (by omega)), hx i hi, Nat.min_eq_left hij, Nat.min_eq_left (by omega)]

theorem Holds.cleared_solveLower (h : w.Holds n n cols) (hx : x.size = n) :
    Cleared n cols (coord x) n (w.solveLower n x) :=
  fold_induction (P := Cleared n cols (coord x)) ⟨hx, fun i _ => by rw [Nat.min_zero, descendingFrom]⟩
    fun j hj b hb => h.cleared_clearBelow hj hb

theorem Holds.coord_solveLower (h : w.Holds n n cols) (hx : x.size = n) {i : ℕ} (hi : i < n) :
    coord (w.solveLower n x) i = coord (Kernel.solveLower cols (coord x) n) i := by
  rw [(h.cleared_solveLower hx).2 i hi, Nat.min_eq_left hi.le, Kernel.coord_solveLower cols _ hi]

theorem Holds.coord_divide (h : w.Holds n n cols) (hx : x.size = n) {i : ℕ} (hi : i < n) :
    coord (w.divide n x) i = coord x i / FactorColumns.pivot cols i := by
  rw [divide, coord_overwrite_zero (f := fun i => coord x i / coord w.pivots i) hx.ge
    (fun i _ b hb => by rw [hb i le_rfl]) hi, h.pivot i hi]

/-- The coordinates from `j` on are solved for, and those before it are as they were. -/
def SolvedFrom (n : ℕ) (cols : Array (FactorColumn F)) (z : ℕ → F) (j : ℕ) (x : Array F) : Prop :=
  x.size = n ∧ ∀ i < n, coord x i = if i < j then z i else coord (Kernel.solveUpper cols n z n) (n - 1 - i)

theorem Holds.solvedFrom_solveAbove (h : w.Holds n n cols) (hj : j < n) {z : ℕ → F}
    (hx : SolvedFrom n cols z (j + 1) x) : SolvedFrom n cols z j (w.solveAbove n j x) := by
  obtain ⟨hsize, hx⟩ := hx
  refine ⟨by rw [solveAbove, Array.size_setIfInBounds, hsize], fun i hi => ?_⟩
  rw [solveAbove]
  rcases eq_or_ne j i with rfl | hji
  · rw [coord_setIfInBounds_self (by omega), if_neg (lt_irrefl j), coord_solveUpper cols z hj, hx j hj,
      if_pos (by omega), show n - (j + 1) = n - 1 - j by omega]
    refine descendingFrom_congr rfl fun p hp => ?_
    rw [h.lower j hj _ (by omega) (by omega), hx _ (by omega), if_neg (by omega)]
  · rw [coord_setIfInBounds_of_ne hji, hx i hi]
    split <;> split
    · rfl
    · omega
    · omega
    · rfl

theorem Holds.solvedFrom_solveUpper (h : w.Holds n n cols) {z : ℕ → F} (hx : x.size = n)
    (hz : ∀ i < n, coord x i = z i) : SolvedFrom n cols z 0 (w.solveUpper n x) :=
  foldRev_induction (P := SolvedFrom n cols z) ⟨hx, fun i hi => by rw [if_pos hi, hz i hi]⟩
    fun j hj b hb => h.solvedFrom_solveAbove hj hb

/-- A right side is replaced by the solution. -/
theorem Holds.solve_eq (h : w.Holds n n cols) (hx : x.size = n) : w.solve n x = solveFactored cols n (coord x) := by
  have hlower : (w.solveLower n x).size = n := (h.cleared_solveLower hx).1
  have hdivide : (w.divide n (w.solveLower n x)).size = n := by rw [divide, size_overwrite, hlower]
  have hupper := h.solvedFrom_solveUpper hdivide (z := coord (tabulate n fun i =>
    coord (Kernel.solveLower cols (coord x) n) i / FactorColumns.pivot cols i)) fun i hi => by
      rw [h.coord_divide hlower hi, h.coord_solveLower hx hi, coord_tabulate, if_pos hi]
  rw [solve, eq_tabulate_coord (w.solveUpper n _), hupper.1, solveFactored]
  refine tabulate_congr fun i hi => ?_
  rw [hupper.2 i hi, if_neg (Nat.not_lt_zero i)]

/-- The columns before `c` have been replaced by columns of the inverse. -/
def Inverted (n : ℕ) (cols : Array (FactorColumn F)) (c : ℕ) (mat : Array F) : Prop :=
  mat.size = n * n ∧ ∀ k < c, ∀ i < n,
    coord mat (k * n + i) = coord (solveFactored cols n fun i => if i = k then 1 else 0) i

theorem coord_unit {c : ℕ} (hc : c < n) (hx : x.size = n) :
    coord (overwrite 0 n (fun i _ => if i = c then 1 else 0) x) = fun i => if i = c then 1 else 0 := by
  funext i
  rcases Nat.lt_or_ge i n with hi | hi
  · exact coord_overwrite_zero (f := fun i => if i = c then 1 else 0) hx.ge (fun _ _ _ _ => rfl) hi
  · have hsize : (overwrite 0 n (fun i _ => if i = c then 1 else 0) x).size ≤ i := by rwa [size_overwrite, hx]
    rw [coord, Array.getD_eq_getD_getElem?, Array.getElem?_eq_none hsize, if_neg (by omega)]
    rfl

theorem Holds.inverted_invertColumn (h : w.Holds n n cols) {c : ℕ} (hc : c < n) {mat : Array F}
    (hmat : Inverted n cols c mat) : Inverted n cols (c + 1) (w.invertColumn n c mat) := by
  obtain ⟨hsize, hmat⟩ := hmat
  have hend : c * n + n ≤ mat.size := by
    rw [hsize]
    exact end_le_square hc
  have hcolumn : (mat.extract (c * n) (c * n + n)).size = n := by
    rw [Array.size_extract]
    omega
  refine ⟨by rw [invertColumn, size_overwrite, hsize], fun k hk i hi => ?_⟩
  rw [invertColumn, h.solve_eq (by rw [size_overwrite, hcolumn]), coord_unit hc hcolumn]
  rcases Nat.lt_succ_iff_lt_or_eq.mp hk with hk | rfl
  · rw [coord_overwrite_of_outside (.inl (columnMajor_lt_start hi hk)), hmat k hk i hi]
  · exact coord_overwrite (f := coord (solveFactored cols n fun i => if i = k then 1 else 0)) hend
      (fun _ _ _ _ => rfl) hi

end Workspace

/-- The inverse in place is the inverse, whatever the workspace held. -/
theorem invertInPlace_eq {n : ℕ} {mat work : Array F} (hmat : mat.size = n * n) (hwork : n + n * n ≤ work.size)
    (eps : F) : invertInPlace n mat eps work = symmetricInverse? n mat eps := by
  have hrel := (Workspace.holds_zero hwork).decompose mat eps le_rfl
  rw [invertInPlace, symmetricInverse?]
  generalize factorColumns n (storedEntry false n mat) eps n = cols? at hrel ⊢
  generalize (Workspace.ofArray n work).clear.decompose n mat eps n = w? at hrel ⊢
  cases hrel with
  | none => rfl
  | @some cols w h =>
    have hinv : Workspace.Inverted n cols n (Nat.fold n (fun c _ mat => w.invertColumn n c mat) mat) :=
      fold_induction (P := Workspace.Inverted n cols) ⟨hmat, fun k hk => absurd hk (Nat.not_lt_zero k)⟩
        fun c hc mat hc' => h.inverted_invertColumn hc hc'
    refine congrArg some ?_
    -- What stands at `p` is the coordinate `p % n` of column `p / n`.
    rw [eq_tabulate_coord (Nat.fold _ _ _), hinv.1]
    refine tabulate_congr fun p hp => ?_
    have hn : 0 < n := Nat.pos_of_mul_pos_right (Nat.zero_lt_of_lt hp)
    have hcolumn : p / n < n := Nat.div_lt_of_lt_mul hp
    rw [getD_tabulate _ _ hcolumn, ← hinv.2 (p / n) hcolumn (p % n) (Nat.mod_lt p hn), Nat.div_add_mod']

end BlockElimination.Kernel
