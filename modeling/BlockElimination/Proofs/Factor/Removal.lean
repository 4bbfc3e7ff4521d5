import BlockElimination.Proofs.Factor.Update

/-!
# Removing a name

A name is removed in place, in one loop over the rows that its column had at first: each row is taken out of the column
and its transposed place is cleared before the next one is looked at. What is left and what is returned are told apart
here. The first is the matrix without these places, whatever its pattern is. The second is the column without its
diagonal block, and it is there for every matrix that operations lead to: two blocks of one column have been compared
when the later one was inserted, so that comparing them again is refused for no reason.
-/
namespace BlockElimination

namespace BlockMatrix

variable {F : Type} {A B : BlockMatrix F} {key : String}

theorem WellFormed.exists_cols (h : A.WellFormed) (key : String) :
    ∃ n, ∀ {i K}, A.get? i key = some K → K.cols = n := by
  by_cases hkey : ∃ i, A.contains i key
  · obtain ⟨i, hi⟩ := hkey
    obtain ⟨L, hL⟩ := contains_iff.mp hi
    exact ⟨L.cols, fun hK => h.cols_eq hK hL⟩
  · exact ⟨0, fun {i K} hK => absurd ⟨i, contains_iff.mpr ⟨K, hK⟩⟩ hkey⟩

/-- Blocks that stand in one column can be put into a column again. -/
theorem exists_insertAll_column [Arith F] (hA : A.WellFormed) (hcompared : A.Compared)
    {entries : List (String × LinearMap F)} (hnodup : (entries.map Prod.fst).Nodup)
    (hentries : ∀ p ∈ entries, A.get? p.1 key = some p.2)
    (hB : ∀ i L, B.get? i key = some L → A.get? i key = some L ∧ i ∉ entries.map Prod.fst) :
    ∃ V, B.insertAll (entries.map fun p => (p.1, key, p.2)) = .ok V := by
  induction entries generalizing B with
  | nil => exact ⟨B, rfl⟩
  | cons p entries ih =>
    obtain ⟨row, a⟩ := p
    obtain ⟨hrow, hnodup⟩ := List.nodup_cons.mp hnodup
    obtain ⟨ha, hentries⟩ := List.forall_mem_cons.mp hentries
    have hfresh : ¬B.contains row key := fun hc => by
      obtain ⟨L, hL⟩ := contains_iff.mp hc
      exact (hB row L hL).2 List.mem_cons_self
    have hinsert : B.insertOrAdd row key a = .ok (B.set row key a) := by
      refine insertOrAdd_fresh hfresh fun i L hL => ?_
      obtain ⟨hL', hi⟩ := hB i L hL
      have hne : i ≠ row := fun e => hi (e ▸ List.mem_cons_self)
      exact ⟨hcompared i row key L a hne hL' ha, hcompared row i key a L hne.symm ha hL', hA.cols_eq hL' ha⟩
    rw [List.map_cons, insertAll, List.foldlM_cons]
    dsimp only
    rw [hinsert]
    refine ih hnodup hentries fun i L hL => ?_
    rw [get?_set] at hL
    split at hL
    case isTrue hplace =>
      obtain rfl := Option.some.inj hL
      exact ⟨hplace.1 ▸ ha, hplace.1 ▸ hrow⟩
    case isFalse =>
      obtain ⟨hL', hi⟩ := hB i L hL
      exact ⟨hL', fun hmem => hi (List.mem_cons_of_mem row hmem)⟩

end BlockMatrix

namespace Factor

open BlockMatrix

variable {F : Type} {A : BlockMatrix F} {key : String}

section Loop
variable [Arith F]

theorem removeRow_eq {row : String} {a : LinearMap F} (ha : A.get? row key = some a) (V : BlockMatrix F) :
    removeRow key (A, V) row =
      if row = key then .ok (erasePair key A row, V)
      else (erasePair key A row, ·) <$> V.insertOrAdd row key a := by
  simp only [removeRow, erasePair, ha]
  split
  · rfl
  · cases V.insertOrAdd row key a <;> rfl

theorem foldlM_removeRow {entries : List (String × LinearMap F)} (hnodup : (entries.map Prod.fst).Nodup)
    (hentries : ∀ p ∈ entries, A.get? p.1 key = some p.2) (V : BlockMatrix F) :
    (entries.map Prod.fst).foldlM (removeRow key) (A, V) =
      ((entries.map Prod.fst).foldl (erasePair key) A, ·) <$>
        V.insertAll ((entries.filter (·.1 != key)).map fun p => (p.1, key, p.2)) := by
  induction entries generalizing A V with
  | nil => rfl
  | cons p entries ih =>
    obtain ⟨row, a⟩ := p
    obtain ⟨hrow, hnodup⟩ := List.nodup_cons.mp hnodup
    obtain ⟨ha, hentries⟩ := List.forall_mem_cons.mp hentries
    -- The rows that are still to come are as they were.
    have hleft : ∀ p ∈ entries, (erasePair key A row).get? p.1 key = some p.2 := fun p hp => by
      have hne : p.1 ≠ row := fun e => hrow (List.mem_map.mpr ⟨p, hp, e⟩)
      rw [get?_erasePair, if_neg, hentries p hp]
      rintro (h | h)
      · exact hne h.1
      · exact hne (h.1.trans h.2)
    rw [List.map_cons, List.foldlM_cons, removeRow_eq ha, List.foldl_cons]
    by_cases hkey : row = key
    · rw [if_pos hkey, List.filter_cons_of_neg (by simp [hkey])]
      exact ih hnodup hleft V
    · rw [if_neg hkey, List.filter_cons_of_pos (by simp [hkey]), List.map_cons, insertAll, List.foldlM_cons]
      cases hV : V.insertOrAdd row key a with
      | error f =>
        dsimp only
        rw [hV]
        rfl
      | ok W =>
        dsimp only
        rw [hV]
        exact ih hnodup hleft W

theorem removeKey_eq (A : BlockMatrix F) (key : String) :
    removeKey A key = (eraseKey A key, ·) <$> offDiagonal A key := by
  unfold removeKey eraseKey offDiagonal offDiagonalEntries
  cases hcolumn : A.column? key with
  | none => rfl
  | some column =>
    refine foldlM_removeRow column.nodup_keys (fun p hp => ?_) .empty
    exact get?_eq_some.mpr ⟨column, hcolumn, (Keyed.mem_entries_iff _ _ _).mp hp⟩

end Loop

/-- `rest` is `A` without the column of `key` and without the transposed places of its blocks, and `V` is that column
without its diagonal block. Everything that is in them is as it was in `A`. -/
structure Removed (A : BlockMatrix F) (key : String) (rest V : BlockMatrix F) : Prop where
  column_get? : ∀ i j, V.get? i j = if i ≠ key ∧ j = key then A.get? i key else none
  column_occupied : V.Occupied
  rest_get? : ∀ i j, rest.get? i j = if j = key ∨ i = key ∧ A.contains j key then none else A.get? i j
  rest_occupied : rest.Occupied
  not_mem : key ∉ rest.colKeys

theorem exists_offDiagonal [Arith F] (hA : A.WellFormed) (hcompared : A.Compared) (key : String) :
    ∃ V, offDiagonal A key = .ok V ∧ V.Occupied ∧
      ∀ i j, V.get? i j = if i ≠ key ∧ j = key then A.get? i key else none := by
  obtain ⟨n, hcols⟩ := hA.exists_cols key
  obtain ⟨V, hV⟩ : ∃ V, offDiagonal A key = .ok V :=
    exists_insertAll_column hA hcompared (nodup_offDiagonalEntries A key)
      (fun p hp => (mem_offDiagonalEntries.mp hp).2) fun i L hL => nomatch hL
  have hsized : ∀ {i K}, A.get? i key = some K → K.Sized ((A.get? i key).elim 0 LinearMap.rows) n := fun hK =>
    ⟨by rw [hK]; rfl, hcols hK⟩
  obtain ⟨hconforms, hget⟩ := (yields_offDiagonal_of (n := fun _ => n) hsized).of_eq_ok hV
  exact ⟨V, hV, hconforms.occupied, hget⟩

theorem not_mem_colKeys_eraseKey_of_occupied (hA : A.WellFormed) (key : String) : key ∉ (eraseKey A key).colKeys := by
  intro hkey
  obtain ⟨i, hi⟩ := (wellFormed_eraseKey hA key).occupied key hkey
  exact (contains_eraseKey_iff.mp hi).2.1 rfl

/-- A name is removed from every block matrix that operations lead to, without a fault, and just as `Removed` says. Where
the pattern is symmetric, no block with the name is left in either position, and the pattern stays symmetric. -/
theorem removeKey_removed [Scalar F] (hA : A.Reachable) (key : String) :
    ∃ rest V, removeKey A key = .ok (rest, V) ∧ Removed A key rest V ∧
      ((∀ i j, A.contains i j → A.contains j i) →
        (∀ k, ¬rest.contains k key ∧ ¬rest.contains key k) ∧ ∀ i j, rest.contains i j → rest.contains j i) := by
  have hwell := hA.wellFormed
  obtain ⟨V, hV, hoccupied, hget⟩ := exists_offDiagonal hwell hA.compared key
  refine ⟨eraseKey A key, V, by rw [removeKey_eq, hV]; rfl, ?_, fun hsymm => ?_⟩
  · exact ⟨hget, hoccupied, get?_eraseKey_eq_ite A key, (wellFormed_eraseKey hwell key).occupied,
      not_mem_colKeys_eraseKey_of_occupied hwell key⟩
  · have hcontains : ∀ i j, (eraseKey A key).contains i j ↔ i ≠ key ∧ j ≠ key ∧ A.contains i j := fun i j =>
      contains_eraseKey fun {i j} => hsymm i j
    simp only [hcontains]
    refine ⟨fun k => ⟨fun h => h.2.1 rfl, fun h => h.1 rfl⟩, fun i j h => ⟨h.2.1, h.1, hsymm i j h.2.2⟩⟩

/-- The transposed place of the block `(k, b)` is free. -/
def oneSided : BlockMatrix ℚ :=
  let column := ((BlockMatrix.empty.insertInPlace "k" "k" (.ofScalar 2 4)).1.insertInPlace "a" "k"
    (.ofEntries 1 2 fun _ q => (q : ℚ) + 1)).1
  ((column.insertInPlace "k" "a" (.ofEntries 2 1 fun p _ => (p : ℚ) - 1)).1.insertInPlace "k" "b" (.ofScalar 2 3)).1

/-- With the transposed places filled, nothing of a name is left. -/
theorem removed_oneSided :
    (∃ rest V, removeKey oneSided "k" = .ok (rest, V) ∧ V.get? "a" "k" = oneSided.get? "a" "k" ∧
      ¬V.contains "k" "k" ∧ ¬rest.contains "k" "a" ∧ rest.contains "k" "b" ∧ "k" ∉ rest.colKeys) ∧
    ∃ rest V, removeKey coupled "c" = .ok (rest, V) ∧ ∀ k, ¬rest.contains k "c" ∧ ¬rest.contains "c" k := by
  have honeSided : oneSided.Reachable :=
    .insertInPlace _ _ _ (.insertInPlace _ _ _ (.insertInPlace _ _ _ (.insertInPlace _ _ _ .empty)))
  have hcoupled : coupled.Reachable := .insertInPlace _ _ _ (.insertInPlace _ _ _ (.insertInPlace _ _ _
    (.insertInPlace _ _ _ (.insertInPlace _ _ _ (.insertInPlace _ _ _ (.insertInPlace _ _ _ .empty))))))
  have hsymm : ∀ i j, coupled.contains i j → coupled.contains j i := by
    have hplaces : ∀ t ∈ coupled.blocks, coupled.contains t.2.1 t.1 := by decide +kernel
    intro i j hc
    obtain ⟨K, hK⟩ := contains_iff.mp hc
    exact hplaces (i, j, K) (mem_blocks.mpr hK)
  obtain ⟨rest, V, hremove, hremoved, -⟩ := removeKey_removed honeSided "k"
  obtain ⟨rest', V', hremove', -, hleft⟩ := removeKey_removed hcoupled "c"
  refine ⟨⟨rest, V, hremove, ?_, ?_, ?_, ?_, hremoved.not_mem⟩, rest', V', hremove', (hleft hsymm).1⟩
  · rw [hremoved.column_get?, if_pos (by decide)]
  · rw [contains, hremoved.column_get?, if_neg (by decide)]
    exact Bool.false_ne_true
  · rw [contains, hremoved.rest_get?, if_pos (by decide +kernel)]
    exact Bool.false_ne_true
  · rw [contains, hremoved.rest_get?, if_neg (by decide +kernel)]
    decide +kernel

end Factor

end BlockElimination
