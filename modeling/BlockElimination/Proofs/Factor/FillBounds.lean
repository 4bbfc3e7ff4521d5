import BlockElimination.Proofs.Factor.LeastFill

/-!
# Bounds of the fill

Every product that is estimated has at most all of its entries and at least a diagonal, whatever its kind. So the fill
of a name is at most the square of the number of rows below its diagonal, and no running total leaves the range of sizes
if this square does not.
-/
namespace BlockElimination

namespace Kind

theorem min_le_mul (m n : ℕ) : min m n ≤ m * n := by
  rcases Nat.eq_zero_or_pos n with rfl | hn
  · simp
  · exact (Nat.min_le_left m n).trans (Nat.le_mul_of_pos_right m hn)

/-- The kinds, from the one with the fewest nonzeros to the one with the most. -/
theorem estimates_ascend (m n : ℕ) : scalar.estimate m n ≤ diag.estimate m n ∧
    diag.estimate m n ≤ kron.estimate m n ∧ kron.estimate m n ≤ dense.estimate m n :=
  ⟨le_rfl, le_max_right _ _, max_le (Nat.div_le_self _ 2) (min_le_mul m n)⟩

theorem min_le_estimate (kind : Kind) (m n : ℕ) : min m n ≤ kind.estimate m n := by
  obtain ⟨hscalar, hdiag, hkron⟩ := estimates_ascend m n
  cases kind with
  | dense => exact min_le_mul m n
  | kron => exact hdiag
  | diag => exact le_rfl
  | scalar => exact le_rfl

theorem estimate_le_mul (kind : Kind) (m n : ℕ) : kind.estimate m n ≤ m * n := by
  obtain ⟨hscalar, hdiag, hkron⟩ := estimates_ascend m n
  cases kind with
  | dense => exact le_rfl
  | kron => exact hkron
  | diag => exact min_le_mul m n
  | scalar => exact min_le_mul m n

theorem nonzeros_eq_ok (kind : Kind) {m n : ℕ} (h : m * n < Size.bound) :
    kind.nonzeros m n = .ok (kind.estimate m n) := by
  have hmul : Size.mul m n = .ok (m * n) := if_pos h
  cases kind with
  | dense => exact hmul
  | kron =>
    rw [nonzeros, hmul]
    rfl
  | diag => rfl
  | scalar => rfl

/-- A dense factor on the left makes the update dense. -/
theorem ofUpdate_dense (d b : Kind) : dense.ofUpdate d b = dense := by
  cases d <;> cases b <;> rfl

end Kind

theorem Outcome.mapM_eq_ok {ε α β : Type} {f : α → Outcome ε β} {g : α → β} {l : List α}
    (h : ∀ a ∈ l, f a = .ok (g a)) : l.mapM f = .ok (l.map g) := by
  induction l with
  | nil => rfl
  | cons a l ih =>
    rw [List.forall_mem_cons] at h
    rw [List.mapM_cons, h.1, ok_bind, ih h.2, ok_bind]
    rfl

/-- A running total of terms is exact as long as the whole sum is in range. -/
theorem foldlM_add_eq_ok {α : Type} {term : α → Except Fault ℕ} {f : α → ℕ} {l : List α} {start : ℕ}
    (hterm : ∀ a ∈ l, term a = .ok (f a)) (hsum : start + (l.map f).sum < Size.bound) :
    l.foldlM (fun total a => term a >>= fun t => Size.add total t) start = .ok (start + (l.map f).sum) := by
  induction l generalizing start with
  | nil => rfl
  | cons a l ih =>
    rw [List.forall_mem_cons] at hterm
    rw [List.map_cons, List.sum_cons, ← Nat.add_assoc] at hsum ⊢
    rw [List.foldlM_cons, hterm.1]
    change (Size.add start (f a) >>= fun total => _) = _
    rw [Size.add, if_pos (by omega)]
    exact ih hterm.2 hsum

namespace Factor

open BlockMatrix

theorem sum_sum_mul {α : Type} (l : List α) (f : α → ℕ) :
    (l.map fun p => (l.map fun q => f p * f q).sum).sum = (l.map f).sum ^ 2 := by
  simp only [List.sum_map_mul_left, List.sum_map_mul_right, sq]

section Column
variable {pivot : Kind} {column : List (Kind × ℕ)}

theorem sum_min_le_columnSum : (column.map fun p => (column.map fun q => min p.2 q.2).sum).sum ≤ columnSum pivot column :=
  List.sum_le_sum fun _ _ => List.sum_le_sum fun _ _ => Kind.min_le_estimate _ _ _

theorem columnSum_le : columnSum pivot column ≤ (column.map Prod.snd).sum ^ 2 := by
  rw [← sum_sum_mul]
  exact List.sum_le_sum fun _ _ => List.sum_le_sum fun _ _ => Kind.estimate_le_mul _ _ _

theorem columnSum_of_dense (h : ∀ p ∈ column, p.1 = .dense) :
    columnSum pivot column = (column.map Prod.snd).sum ^ 2 := by
  rw [← sum_sum_mul, columnSum]
  refine congrArg List.sum (List.map_congr_left fun p hp => ?_)
  refine congrArg List.sum (List.map_congr_left fun q _ => ?_)
  rw [h p hp, Kind.ofUpdate_dense]
  rfl

theorem fillOfColumn_eq_ok (hsquare : (column.map Prod.snd).sum ^ 2 < Size.bound) :
    fillOfColumn pivot column = .ok (columnSum pivot column) := by
  have hrows : ∀ p ∈ column, p.2 ≤ (column.map Prod.snd).sum := fun p hp =>
    List.single_le_sum (by simp) _ (List.mem_map_of_mem hp)
  have hterm : ∀ t ∈ column.flatMap fun p => column.map fun q => (p, q),
      ((t.1.1.ofProduct pivot).ofProduct t.2.1).nonzeros t.1.2 t.2.2 =
        .ok ((Kind.ofUpdate t.1.1 pivot t.2.1).estimate t.1.2 t.2.2) := by
    rintro ⟨p, q⟩ ht
    obtain ⟨hp, hq⟩ := List.mem_product.mp ht
    refine Kind.nonzeros_eq_ok _ (lt_of_le_of_lt ?_ hsquare)
    exact (Nat.mul_le_mul (hrows p hp) (hrows q hq)).trans_eq (sq _).symm
  have hbound : 0 + columnSum pivot column < Size.bound := by
    rw [Nat.zero_add]
    exact columnSum_le.trans_lt hsquare
  rw [← sum_pairs_eq_columnSum] at hbound ⊢
  exact (foldlM_add_eq_ok hterm hbound).trans (by rw [Nat.zero_add])

end Column

variable {F : Type} {A : BlockMatrix F} {key : String}

/-- The row counts of the blocks off the diagonal in the column of `key`. -/
def offDiagonalRows (A : BlockMatrix F) (key : String) : List ℕ := (offDiagonalEntries A key).map (·.2.rows)

theorem fill_eq_ok {d : LinearMap F} (hd : A.get? key key = some d)
    (hfits : ∀ p ∈ offDiagonalEntries A key, p.2.Fits) (hsquare : (offDiagonalRows A key).sum ^ 2 < Size.bound) :
    fill A key = .ok (columnSum d.kind ((offDiagonalEntries A key).map fun p => (p.2.kind, p.2.rows))) := by
  have hdiagonal : diagonal A key = .ok d := by rw [diagonal, hd]
  have hcolumn : ((offDiagonalEntries A key).mapM fun p =>
      ((p.2.kind, ·) <$> (Outcome.ofExcept p.2.rowCount : Outcome BlockError ℕ))) =
        .ok ((offDiagonalEntries A key).map fun p => (p.2.kind, p.2.rows)) := by
    refine Outcome.mapM_eq_ok fun p hp => ?_
    rw [LinearMap.rowCount_of_fits (hfits p hp)]
    rfl
  have hrows : ((offDiagonalEntries A key).map fun p => (p.2.kind, p.2.rows)).map Prod.snd = offDiagonalRows A key := by
    rw [List.map_map]
    rfl
  rw [fill, hdiagonal, Outcome.ok_bind]
  change (((offDiagonalEntries A key).mapM fun p =>
      ((p.2.kind, ·) <$> (Outcome.ofExcept p.2.rowCount : Outcome BlockError ℕ))) >>= _) = _
  rw [hcolumn, Outcome.ok_bind, fillOfColumn_eq_ok (hrows ▸ hsquare)]
  rfl

/-- What the fill is bounded by. If the squared number of rows off the diagonal is a size, then no size leaves its range
on the way, and the fill is at least the diagonals of all products and at most all of their entries. It is the latter
where all blocks off the diagonal are dense. -/
theorem fill_bounds (hfits : ∀ i j K, A.get? i j = some K → K.Fits) (hkey : A.contains key key)
    (hsquare : (offDiagonalRows A key).sum ^ 2 < Size.bound) :
    ∃ f, fill A key = .ok f ∧
      ((offDiagonalRows A key).map fun m => ((offDiagonalRows A key).map fun n => min m n).sum).sum ≤ f ∧
      f ≤ (offDiagonalRows A key).sum ^ 2 ∧
      ((∀ i K, i ≠ key → A.get? i key = some K → K.kind = .dense) → f = (offDiagonalRows A key).sum ^ 2) := by
  obtain ⟨d, hd⟩ := contains_iff.mp hkey
  have hfits : ∀ p ∈ offDiagonalEntries A key, p.2.Fits := fun p hp => hfits p.1 key p.2 (mem_offDiagonalEntries.mp hp).2
  refine ⟨_, fill_eq_ok hd hfits hsquare, ?_, ?_, fun hdense => ?_⟩
  · refine Eq.trans_le ?_ sum_min_le_columnSum
    simp only [offDiagonalRows, List.map_map, Function.comp_def]
  · refine columnSum_le.trans_eq ?_
    rw [List.map_map]
    rfl
  · rw [columnSum_of_dense, List.map_map]
    · rfl
    · simp only [List.mem_map]
      rintro _ ⟨p, hp, rfl⟩
      obtain ⟨hne, hget⟩ := mem_offDiagonalEntries.mp hp
      exact hdense p.1 p.2 hne hget

/-- A Kronecker product, a multiple of an identity and a dense map below one diagonal block. -/
def mixed : BlockMatrix ℚ :=
  let product : LinearMap ℚ := .kron (.ofEntries 2 1 fun i _ => i) (.ofEntries 1 2 fun _ j => (j : ℚ) + 1)
  (((BlockMatrix.empty.set "k" "k" (.ofScalar 2 4)).set "a" "k" product).set "b" "k" (.ofScalar 2 3)).set "c" "k"
    (.ofEntries 3 2 fun i j => (i : ℚ) - j)

/-- Two dense maps below one diagonal block. -/
def written : BlockMatrix ℚ :=
  ((BlockMatrix.empty.set "k" "k" (.ofDiagonal #[2, 3])).set "a" "k" (.ofEntries 2 2 fun i _ => (i : ℚ))).set "c" "k"
    (.ofEntries 3 2 fun i j => (i : ℚ) - j)

theorem mixed_fill : (∃ f, fill mixed "k" = .ok f ∧ 19 ≤ f ∧ f ≤ 49) ∧ fill written "k" = .ok 25 := by
  have hmixed : ∀ t ∈ mixed.blocks, t.2.2.Fits := by decide +kernel
  have hwritten : ∀ t ∈ written.blocks, t.2.2.Fits := by decide +kernel
  have hdense : ∀ t ∈ written.blocks, t.1 ≠ "k" → t.2.2.kind = .dense := by decide +kernel
  obtain ⟨f, hf, hlow, hhigh, -⟩ := fill_bounds (fun i j K hK => hmixed (i, j, K) (mem_blocks.mpr hK))
    (show mixed.contains "k" "k" by decide +kernel) (by decide +kernel)
  obtain ⟨g, hg, -, -, hall⟩ := fill_bounds (fun i j K hK => hwritten (i, j, K) (mem_blocks.mpr hK))
    (show written.contains "k" "k" by decide +kernel) (by decide +kernel)
  have hrows : offDiagonalRows mixed "k" = [2, 2, 3] := by decide +kernel
  have hdenseRows : offDiagonalRows written "k" = [2, 3] := by decide +kernel
  rw [hrows] at hlow hhigh
  rw [hall fun i K hne hK => hdense (i, "k", K) (mem_blocks.mpr hK) hne, hdenseRows] at hg
  exact ⟨⟨f, hf, hlow, hhigh⟩, hg⟩

end Factor

end BlockElimination
