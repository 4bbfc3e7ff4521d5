import BlockElimination.Proofs.BlockMatrix.Arithmetic
import BlockElimination.Proofs.Ends

/-!
# Patterns

Where an operation leaves blocks is a question of the places of its operands alone. What is shown here holds in every
arithmetic, whatever the blocks are, provided only that they fit so far that there is a result.
-/
namespace BlockElimination.BlockMatrix

variable {F : Type} {A B : BlockMatrix F}

/-- `B` has the blocks of `A` and blocks at further places. -/
structure Extends (A : BlockMatrix F) (places : List (String × String)) (B : BlockMatrix F) : Prop where
  contains_iff : ∀ i j, B.contains i j ↔ A.contains i j ∨ (i, j) ∈ places
  mem_colKeys : ∀ k, k ∈ B.colKeys ↔ k ∈ A.colKeys ∨ ∃ i, (i, k) ∈ places

theorem Extends.nil (A : BlockMatrix F) : Extends A [] A where
  contains_iff i j := by simp
  mem_colKeys k := by simp

theorem Extends.set {places : List (String × String)} (h : Extends A places B) (row col : String) (K : LinearMap F) :
    Extends A (places ++ [(row, col)]) (B.set row col K) where
  contains_iff i j := by
    rw [contains_set, h.contains_iff, List.mem_append, List.mem_singleton, Prod.mk.injEq]
    tauto
  mem_colKeys k := by
    simp only [mem_colKeys_set, h.mem_colKeys, List.mem_append, List.mem_singleton, Prod.mk.injEq]
    constructor
    · rintro (rfl | hk | ⟨i, hi⟩)
      · exact .inr ⟨row, .inr ⟨rfl, rfl⟩⟩
      · exact .inl hk
      · exact .inr ⟨i, .inl hi⟩
    · rintro (hk | ⟨i, hi | ⟨-, rfl⟩⟩)
      · exact .inr (.inl hk)
      · exact .inr (.inr ⟨i, hi⟩)
      · exact .inl rfl

theorem contains_empty (i j : String) : ¬(empty : BlockMatrix F).contains i j := fun h =>
  nomatch BlockMatrix.contains_iff.mp h

/-- Two different names are joined if one has a block at the other. -/
def graph (A : BlockMatrix F) : SimpleGraph String := .fromRel fun u w => A.contains u w

theorem graph_adj (hA : ∀ i j, A.contains i j → A.contains j i) {u w : String} :
    A.graph.Adj u w ↔ u ≠ w ∧ A.contains u w := by
  rw [graph, SimpleGraph.fromRel_adj, or_iff_left_of_imp (hA w u)]

variable [Arith F]

theorem Extends.ensures_insertOrAdd {places : List (String × String)} (h : Extends A places B) (row col : String)
    (K : LinearMap F) : Ensures (B.insertOrAdd row col K) (Extends A (places ++ [(row, col)])) := by
  refine Ensures.bind_any fun _ => ?_
  cases B.get? row col with
  | none => exact Ensures.pure_iff.mpr (h.set row col K)
  | some a =>
    exact Ensures.bind_any fun sum =>
      Ensures.pure_iff.mpr (h.set row col sum)

theorem ensures_insertAll (A : BlockMatrix F) (items : List (String × String × LinearMap F)) :
    Ensures (A.insertAll items) (Extends A (items.map fun t => (t.1, t.2.1))) := by
  refine Ensures.foldlM (fun (done : List (String × String × LinearMap F)) B =>
    Extends A (done.map fun t => (t.1, t.2.1)) B) (.nil A) ?_
  intro done t B hB
  rw [List.map_append]
  exact hB.ensures_insertOrAdd t.1 t.2.1 t.2.2

omit [Arith F] in
theorem mem_places {i j : String} : (i, j) ∈ A.blocks.map (fun t => (t.1, t.2.1)) ↔ A.contains i j := by
  simp only [List.mem_map, Prod.exists, Prod.mk.injEq, contains_iff, ← mem_blocks]
  constructor
  · rintro ⟨r, c, K, hK, rfl, rfl⟩
    exact ⟨K, hK⟩
  · rintro ⟨K, hK⟩
    exact ⟨i, j, K, hK, rfl, rfl⟩

theorem ensures_transpose (A : BlockMatrix F) :
    Ensures A.transpose fun B => ∀ i j, B.contains j i ↔ A.contains i j := by
  refine (ensures_insertAll empty _).mono fun B hB i j => ?_
  rw [hB.contains_iff, or_iff_right (contains_empty j i), ← mem_places]
  simp only [List.mem_map, Prod.exists, Prod.mk.injEq]
  constructor
  · rintro ⟨_, _, _, ⟨r, c, K, hK, rfl, rfl, rfl⟩, rfl, rfl⟩
    exact ⟨r, c, K, hK, rfl, rfl⟩
  · rintro ⟨r, c, K, hK, rfl, rfl⟩
    exact ⟨c, r, K.transpose, ⟨r, c, K, hK, rfl, rfl, rfl⟩, rfl, rfl⟩

theorem ensures_addScaled (alpha : F) (A B : BlockMatrix F) :
    Ensures (A.addScaled alpha B) (Extends A (B.blocks.map fun t => (t.1, t.2.1))) := by
  refine (ensures_insertAll A _).mono fun C hC => ?_
  rwa [List.map_map] at hC

theorem ends_mul {ε : Type} {q : ε → Prop} (A B : BlockMatrix F) :
    (A.mul B).Ends (fun C => ∀ i j, C.contains i j ↔ ∃ k, A.contains i k ∧ B.contains k j) q fun _ => True := by
  have hfold : (A.mul B).Ends (Extends empty ((meetings A B).map fun t => (t.1.1, t.1.2.2))) q fun _ => True := by
    refine Outcome.Ends.foldlM (fun (done : List ((String × String × String) × LinearMap F × LinearMap F)) C =>
      Extends empty (done.map fun t => (t.1.1, t.1.2.2)) C) (.nil empty) ?_
    rintro done ⟨⟨i, k, j⟩, a, b⟩ - C hC
    rw [List.map_append]
    refine Outcome.Ends.report_bind ?_
    refine Outcome.Ends.lift_bind_any fun product => ?_
    exact Outcome.Ends.lift (hC.ensures_insertOrAdd i j product)
  refine hfold.mono (fun C hC i j => ?_) (fun _ h => h) fun _ h => h
  rw [hC.contains_iff, or_iff_right (contains_empty i j)]
  simp only [List.mem_map, Prod.mk.injEq, contains_iff]
  constructor
  · rintro ⟨⟨⟨r, k, c⟩, a, b⟩, ht, rfl, rfl⟩
    obtain ⟨ha, hb⟩ := mem_meetings.mp ht
    exact ⟨k, ⟨a, ha⟩, b, hb⟩
  · rintro ⟨k, ⟨a, ha⟩, b, hb⟩
    exact ⟨((i, k, j), a, b), mem_meetings.mpr ⟨ha, hb⟩, rfl, rfl⟩

end BlockElimination.BlockMatrix
