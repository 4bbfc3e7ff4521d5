import BlockElimination.Proofs.BlockMatrix.Diagonal
import BlockElimination.Proofs.BlockMatrix.Reachable
import BlockElimination.Proofs.LinearMap.Storage

/-!
# Transposing twice

A transpose keeps every payload where it is stored, so two of them give back the map itself and not only its numbers.
For a block matrix the first one is refused if and only if a row has blocks of different heights, since those would come
into one column. Being equal to itself is then a matter of storage, also for numbers that differ from themselves.
-/
namespace BlockElimination

namespace BlockMatrix

section Heads
variable {F : Type} {A T : BlockMatrix F} {i j : String} {K : LinearMap F}

theorem sorted_blocks (A : BlockMatrix F) : A.blocks.Pairwise fun s t => s.2.1 ≤ t.2.1 := by
  rw [blocks]
  refine List.pairwise_flatMap.mpr ⟨fun p _ => ?_, A.columns.sorted.imp fun hlt => ?_⟩
  · rw [List.pairwise_map]
    exact List.pairwise_of_forall fun _ _ => le_rfl
  · simp only [List.mem_map]
    rintro _ ⟨_, -, rfl⟩ _ ⟨_, -, rfl⟩
    exact hlt.le

/-- The block that names the dimension of a row is in the least of its columns. -/
theorem rowHeads_eq_some_iff : A.rowHeads.get? i = some K ↔
    ∃ j, A.get? i j = some K ∧ ∀ k, A.contains i k → j ≤ k := by
  have hleast : ∀ {L}, A.rowHeads.get? i = some L → ∃ j, A.get? i j = some L ∧ ∀ k, A.contains i k → j ≤ k := by
    intro L hL
    rw [get?_rowHeads] at hL
    obtain ⟨⟨r, j, L⟩, hfind, rfl⟩ := Option.map_eq_some_iff.mp hL
    obtain ⟨hr, before, after, hblocks, hbefore⟩ := List.find?_eq_some_iff_append.mp hfind
    obtain rfl : r = i := by simpa using hr
    refine ⟨j, mem_blocks.mp (List.mem_of_find?_eq_some hfind), fun k hk => ?_⟩
    obtain ⟨M, hM⟩ := contains_iff.mp hk
    have hmem := mem_blocks.mpr hM
    have hsorted := sorted_blocks A
    rw [hblocks] at hmem hsorted
    rcases List.mem_append.mp hmem with hmem | hmem
    · simpa using hbefore _ hmem
    · rcases List.mem_cons.mp hmem with heq | hmem
      · exact (congrArg (fun t => t.2.1) heq).ge
      · exact (List.pairwise_cons.mp (List.pairwise_append.mp hsorted).2.1).1 _ hmem
  refine ⟨hleast, fun ⟨j, hK, hj⟩ => ?_⟩
  have hrow : i ∈ A.rowKeys := mem_rowKeys.mpr ⟨j, contains_iff.mpr ⟨K, hK⟩⟩
  obtain ⟨L, hL⟩ := Keyed.contains_iff.mp (Keyed.mem_keys.mp hrow)
  obtain ⟨k, hk, hkleast⟩ := hleast hL
  obtain rfl : j = k := String.le_antisymm (hj k (contains_iff.mpr ⟨L, hk⟩)) (hkleast j (contains_iff.mpr ⟨K, hK⟩))
  rw [hL, ← hk, hK]

/-- The block that names the dimension of a column is in the least of its rows. -/
theorem mem_colHeads_iff : (j, K) ∈ A.colHeads ↔ ∃ i, A.get? i j = some K ∧ ∀ k, A.contains k j → i ≤ k := by
  simp only [colHeads, List.mem_filterMap, Prod.exists, Option.map_eq_some_iff, Prod.mk.injEq]
  constructor
  · rintro ⟨c, column, hmem, i, L, hfirst, rfl, rfl⟩
    have hcolumn : A.column? c = some column := (Keyed.mem_entries_iff _ _ _).mp hmem
    refine ⟨i, get?_eq_some.mpr ⟨column, hcolumn, Keyed.get?_first hfirst⟩, fun k hk => ?_⟩
    exact Keyed.le_of_first? hfirst (Keyed.mem_keys.mp ((mem_keys_iff_contains hmem).mpr hk))
  · rintro ⟨i, hK, hi⟩
    obtain ⟨column, hcolumn, hrow⟩ := get?_eq_some.mp hK
    have hmem := (Keyed.mem_entries_iff _ _ _).mpr hcolumn
    have hentry := (Keyed.mem_entries_iff _ _ _).mpr hrow
    obtain ⟨⟨k, L⟩, hfirst⟩ : ∃ p, column.first? = some p := ⟨_, List.head?_eq_some_head (List.ne_nil_of_mem hentry)⟩
    have hL : A.get? k j = some L := get?_eq_some.mpr ⟨column, hcolumn, Keyed.get?_first hfirst⟩
    obtain rfl : i = k := String.le_antisymm (hi k (contains_iff.mpr ⟨L, hL⟩))
      (Keyed.le_of_first? hfirst (Keyed.contains_iff.mpr ⟨K, hrow⟩))
    exact ⟨j, column, hmem, i, L, hfirst, rfl, Option.some.inj (hL.symm.trans hK)⟩

/-- `T` has the transposed blocks of `A` at the exchanged places. -/
def Transposes (A T : BlockMatrix F) : Prop := ∀ i j, T.get? j i = (A.get? i j).map LinearMap.transpose

theorem Transposes.symm (h : Transposes A T) : Transposes T A := by
  intro j i
  rw [h i j, Option.map_map]
  have hid : (LinearMap.transpose ∘ LinearMap.transpose : LinearMap F → LinearMap F) = id :=
    funext LinearMap.transpose_transpose
  rw [hid, Option.map_id_fun, id]

theorem Transposes.get?_eq_some_iff (h : Transposes A T) :
    T.get? j i = some K ↔ ∃ L, A.get? i j = some L ∧ L.transpose = K := by
  rw [h i j, Option.map_eq_some_iff]

theorem Transposes.rowHeads_eq (h : Transposes A T) :
    T.rowHeads = (⟨A.colHeads, pairwise_colHeads A⟩ : Keyed (LinearMap F)).map LinearMap.transpose := by
  refine Keyed.ext_get? fun j => Option.ext fun K => ?_
  rw [Keyed.get?_map, Option.map_eq_some_iff, rowHeads_eq_some_iff]
  simp only [← Keyed.mem_entries_iff, mem_colHeads_iff, h.get?_eq_some_iff, contains_of_transpose h]
  constructor
  · rintro ⟨i, ⟨L, hL, rfl⟩, hi⟩
    exact ⟨L, ⟨i, hL, hi⟩, rfl⟩
  · rintro ⟨L, ⟨i, hL, hi⟩, rfl⟩
    exact ⟨i, ⟨L, hL, rfl⟩, hi⟩

/-- A transpose has as many rows as there were columns, and overflows with them. -/
theorem Transposes.rowCount_eq (h : Transposes A T) : T.rowCount = A.colCount := by
  have hvalues : T.rowHeads.values = A.colHeads.map fun p => p.2.transpose := by
    rw [h.rowHeads_eq, Keyed.values, Keyed.map, List.map_map]
    rfl
  have hcounts : (LinearMap.rowCount ∘ fun p : String × LinearMap F => p.2.transpose) = fun p => p.2.colCount :=
    funext fun p => p.2.rowCount_transpose
  rw [rowCount, colCount, hvalues, List.mapM_map, hcounts]

end Heads

section Twice
variable {F : Type} {A B T U : BlockMatrix F}

/-- All blocks live in some storage. -/
def InStorage (A : BlockMatrix F) : Prop := ∀ i j K, A.get? i j = some K → K.InStorage

theorem inStorage_share (A : BlockMatrix F) (next : ℕ) : (A.share next).1.InStorage := by
  suffices h : ∀ (l : List (String × String × LinearMap F)) (s : BlockMatrix F × ℕ),
      (∀ i j K, s.1.get? i j = some K → K.InStorage ∨ ∃ L, (i, j, L) ∈ l) →
        (l.foldl (fun s t => (s.1.set t.1 t.2.1 (t.2.2.share s.2).1, (t.2.2.share s.2).2)) s).1.InStorage from
    h A.blocks (A, next) fun i j K hK => .inr ⟨K, mem_blocks.mpr hK⟩
  intro l
  induction l with
  | nil => exact fun s h i j K hK => (h i j K hK).resolve_right fun ⟨L, hL⟩ => nomatch hL
  | cons t l ih =>
    obtain ⟨row, col, a⟩ := t
    intro s h
    refine ih _ fun i j K hK => ?_
    dsimp only at hK
    rw [get?_set] at hK
    split at hK
    case isTrue =>
      obtain rfl := Option.some.inj hK
      exact .inl (a.inStorage_share s.2)
    case isFalse hplace =>
      refine (h i j K hK).imp_right fun ⟨L, hL⟩ => ⟨L, (List.mem_cons.mp hL).resolve_left fun heq => ?_⟩
      simp only [Prod.mk.injEq] at heq
      exact hplace ⟨heq.1, heq.2.1⟩

variable [Arith F]

theorem beq_self (h : A.InStorage) : (A == A) = true := by
  refine Keyed.isEqv_self fun p hp => Keyed.isEqv_self fun q hq => LinearMap.beq_self ?_
  exact h q.1 p.1 q.2 (get?_eq_some.mpr ⟨p.2, (Keyed.mem_entries_iff _ _ _).mp hp, (Keyed.mem_entries_iff _ _ _).mp hq⟩)

theorem ensures_insertOrAdd_set (A : BlockMatrix F) (row col : String) (K : LinearMap F) :
    Ensures (A.insertOrAdd row col K) fun B => ∃ P, B = A.set row col P ∧ P.cols = K.cols := by
  refine Ensures.bind_any fun _ => ?_
  cases A.get? row col with
  | none => exact Ensures.pure_iff.mpr ⟨K, rfl, rfl⟩
  | some a =>
    exact (LinearMap.ensures_add a K).bind fun P hP => Ensures.pure_iff.mpr ⟨P, rfl, hP.2.2.trans hP.1.2.symm⟩

/-- Every insertion that is not refused leaves blocks with the column counts of all that has been inserted. -/
theorem WellFormed.ensures_insertAll_cols (h : A.WellFormed) (items : List (String × String × LinearMap F)) :
    Ensures (A.insertAll items) fun B => B.WellFormed ∧
      ∀ t ∈ items, ∃ K, B.get? t.1 t.2.1 = some K ∧ K.cols = t.2.2.cols := by
  refine Ensures.foldlM (fun (done : List (String × String × LinearMap F)) (B : BlockMatrix F) => B.WellFormed ∧
    ∀ t ∈ done, ∃ K, B.get? t.1 t.2.1 = some K ∧ K.cols = t.2.2.cols) ⟨h, fun t ht => nomatch ht⟩ ?_
  rintro done ⟨row, col, K⟩ B ⟨hB, hdone⟩ C hC
  obtain ⟨hwell, hcols, -⟩ := hB.ensures_insertOrAdd row col K C hC
  obtain ⟨P, rfl, hP⟩ := B.ensures_insertOrAdd_set row col K C hC
  refine ⟨hwell, List.forall_mem_append.mpr ⟨fun t ht => ?_, List.forall_mem_singleton.mpr ⟨P, by simp, hP⟩⟩⟩
  obtain ⟨L, hL, hLcols⟩ := hdone t ht
  rw [get?_set]
  split
  case isTrue hplace =>
    rw [hplace.2] at hL
    exact ⟨P, rfl, by rw [hP, ← hcols _ L hL, hLcols]⟩
  case isFalse => exact ⟨L, hL, hLcols⟩

/-- Two blocks of one row have different heights. -/
def RowDisagrees (A : BlockMatrix F) : Prop :=
  ∃ i j k K L, A.get? i j = some K ∧ A.get? i k = some L ∧ K.rows ≠ L.rows

/-- The blocks of a row come into one column. -/
theorem not_rowDisagrees_of_transpose (hT : A.transpose = .ok T) : ¬A.RowDisagrees := by
  rintro ⟨i, j, k, K, L, hK, hL, hne⟩
  obtain ⟨hwell, hitems⟩ := WellFormed.empty.ensures_insertAll_cols _ T hT
  have hcolumn : ∀ {j K}, A.get? i j = some K → ∃ P, T.get? j i = some P ∧ P.cols = K.rows := fun {j K} hK => by
    obtain ⟨P, hP, hcols⟩ := hitems (j, i, K.transpose) (List.mem_map.mpr ⟨(i, j, K), mem_blocks.mpr hK, rfl⟩)
    exact ⟨P, hP, hcols.trans K.cols_transpose⟩
  obtain ⟨P, hP, hPK⟩ := hcolumn hK
  obtain ⟨Q, hQ, hQL⟩ := hcolumn hL
  exact hne (by rw [← hPK, ← hQL, hwell.cols_eq hP hQ])

omit [Arith F] in
theorem WellFormed.exists_conforms (h : A.WellFormed) (hrows : ¬A.RowDisagrees) : ∃ m n, A.Conforms m n := by
  refine h.occupied.exists_conforms (fun {i j k K L} hK hL => ?_) fun hK hL => h.cols_eq hK hL
  by_contra hne
  exact hrows ⟨i, j, k, K, L, hK, hL, hne⟩

end Twice

section Main
variable {F : Type} [Scalar F] {A : BlockMatrix F}

/-- Unless a size leaves its range, a transpose is refused if and only if two blocks of one row have different heights.
Otherwise the row and column counts change places, and transposing again gives back the matrix with all its payloads in
their storage, so that it is equal to the matrix in the sense of `==`, in no matter which arithmetic. The same holds of
single maps. Whatever is kept has been shared first, and then all of it is in storage. -/
theorem Reachable.transposed_twice (hA : A.Reachable) :
    (A.transpose ≠ .error .overflow → ((∃ f, A.transpose = .error f) ↔ A.RowDisagrees)) ∧
    (∀ T, A.transpose = .ok T → T.rowCount = A.colCount ∧ T.colCount = A.rowCount ∧
      Yields T.transpose fun U => U = A ∧ (A.InStorage → (U == A) = true)) ∧
    (∀ K : LinearMap F, K.transpose.transpose = K ∧ (K.InStorage → (K.transpose.transpose == K) = true)) ∧
    ∀ next, (A.share next).1.InStorage ∧ ∀ K : LinearMap F, (K.share next).1.InStorage := by
  have hwell := hA.wellFormed
  refine ⟨fun hsize => ?_, fun T hT => ?_, fun K => ?_, fun next => ⟨A.inStorage_share next, fun K => ?_⟩⟩
  · constructor
    · rintro ⟨f, hf⟩
      by_contra hrows
      obtain ⟨m, n, hconforms⟩ := hwell.exists_conforms hrows
      have hyields := hconforms.yields_transpose
      rw [hf, Yields.error_iff] at hyields
      exact hsize (hyields ▸ hf)
    · intro hrows
      cases hT : A.transpose with
      | error f => exact ⟨f, rfl⟩
      | ok T => exact absurd hrows (not_rowDisagrees_of_transpose hT)
  · obtain ⟨m, n, hconforms⟩ := hwell.exists_conforms (not_rowDisagrees_of_transpose hT)
    obtain ⟨hTconforms, htransposes⟩ := hconforms.yields_transpose.of_eq_ok hT
    have htransposes : Transposes A T := htransposes
    refine ⟨htransposes.rowCount_eq, htransposes.symm.rowCount_eq.symm, ?_⟩
    refine hTconforms.yields_transpose.mono ?_
    rintro U ⟨hUconforms, hU⟩
    have heq : U = A := hUconforms.occupied.ext_get? hconforms.occupied fun i j => by
      rw [hU j i, htransposes.symm j i]
    exact ⟨heq, fun hstored => by rw [heq, beq_self hstored]⟩
  · rw [LinearMap.transpose_transpose]
    exact ⟨rfl, LinearMap.beq_self⟩
  · exact K.inStorage_share next

end Main

section Witness

/-- Integers, and a value that differs from itself. -/
inductive Gapped
  | int (n : ℤ)
  | nan

namespace Gapped

def lift₂ (f : ℤ → ℤ → ℤ) : Gapped → Gapped → Gapped
  | int a, int b => int (f a b)
  | _, _ => nan

def relate (r : ℤ → ℤ → Bool) : Gapped → Gapped → Bool
  | int a, int b => r a b
  | _, _ => false

instance : Scalar Gapped where
  zero := int 0
  one := int 1
  add := lift₂ (· + ·)
  mul := lift₂ (· * ·)
  neg a := lift₂ (· - ·) (int 0) a
  beq := relate (· == ·)
  sub := lift₂ (· - ·)
  div := lift₂ (· / ·)
  abs a := lift₂ max a (lift₂ (· - ·) (int 0) a)
  isLe := relate (· ≤ ·)

end Gapped

/-- A row of two blocks, one of them a product. -/
def gappedRow : BlockMatrix Gapped :=
  (((BlockMatrix.empty.insertInPlace "a" "k"
    (.kron (.ofEntries 2 1 fun _ _ => .nan) (.ofScalar 1 (.int 3)))).1.insertInPlace "a" "l"
      (.ofDiagonal #[.nan, .int 5])).1.share 0).1

/-- A row of two heights. -/
def unevenRow : BlockMatrix Gapped :=
  ((BlockMatrix.empty.insertInPlace "a" "k" (.ofScalar 2 .nan)).1.insertInPlace "a" "l" (.ofScalar 3 .nan)).1

theorem gappedRow_transposed_twice :
    (∃ T U, gappedRow.transpose = .ok T ∧ T.transpose = .ok U ∧ T.rowCount = gappedRow.colCount ∧
      T.colCount = gappedRow.rowCount ∧ (U == gappedRow) = true) ∧ ∃ f, unevenRow.transpose = .error f := by
  constructor
  · have hreachable : gappedRow.Reachable := .share 0 (.insertInPlace _ _ _ (.insertInPlace _ _ _ .empty))
    obtain ⟨-, htwice, -⟩ := hreachable.transposed_twice
    obtain ⟨U, hU⟩ := exists_eq_ok (show (gappedRow.transpose >>= transpose).toBool = true by decide +kernel)
    obtain ⟨T, hT, hU⟩ := exists_of_bind_eq_ok hU
    obtain ⟨hrows, hcols, hback⟩ := htwice T hT
    exact ⟨T, U, hT, hU, hrows, hcols, (hback.of_eq_ok hU).2 (inStorage_share _ 0)⟩
  · have hreachable : unevenRow.Reachable := .insertInPlace _ _ _ (.insertInPlace _ _ _ .empty)
    obtain ⟨hrefused, -⟩ := hreachable.transposed_twice
    have hunit : unevenRow.transpose.map (fun _ => ()) ≠ .error .overflow := by decide +kernel
    have hsize : unevenRow.transpose ≠ .error .overflow := fun h => hunit (by rw [h]; rfl)
    exact (hrefused hsize).mpr ⟨"a", "k", "l", .ofScalar 2 .nan, .ofScalar 3 .nan, rfl, rfl, by decide⟩

end Witness

end BlockMatrix

end BlockElimination
