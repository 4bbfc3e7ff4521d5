import BlockElimination.Proofs.BlockMatrix.Arithmetic
import BlockElimination.Proofs.BlockMatrix.Symmetric
import BlockElimination.Proofs.LinearMap.Written

/-!
# Products act as composites

A product has a block wherever two blocks meet, and an action a segment wherever a block meets one. Neither depends on
the order in which the results are gathered: acting with a product is acting with its factors in turn, down to the
names of the segments.
-/
namespace BlockElimination.BlockMatrix

open Matrix

variable {F ε : Type} [CommRing F] [DecidableEq F] {A B C : BlockMatrix F} {p q s : String → ℕ}
  {u v w x z : BlockVector F} {i j k : String} {t : Finset String}

/-- A block writes out as the matrix at its place. -/
theorem Consistent.writtenAs (hA : A.Consistent p q) {K : LinearMap F} (hK : A.get? i j = some K) :
    K.WrittenAs (A.block p q i j) := by
  rw [block_of_get? hK]
  exact (hA i j K hK).writtenAs

theorem block_mul_eq_zero (h : ¬(A.contains i k ∧ B.contains k j)) : A.block p q i k * B.block q s k j = 0 := by
  by_cases hA : A.contains i k
  · rw [block_of_not_contains fun hB => h ⟨hA, hB⟩, Matrix.mul_zero]
  · rw [block_of_not_contains hA, Matrix.zero_mul]

theorem block_mulVec_eq_zero (h : ¬(A.contains i k ∧ z.contains k)) : A.block p q i k *ᵥ z.part q k = 0 := by
  by_cases hA : A.contains i k
  · rw [BlockVector.part_of_not_contains fun hz => h ⟨hA, hz⟩, mulVec_zero]
  · rw [block_of_not_contains hA, zero_mulVec]

theorem ProductOf.block_eq_sum (h : ProductOf p q s A.names A B C)
    (ht : ∀ k, A.contains i k ∧ B.contains k j → k ∈ t) :
    C.block p s i j = ∑ k ∈ t, A.block p q i k * B.block q s k j := by
  rw [h.block_eq]
  exact sum_eq_sum_of_support (fun k => block_mul_eq_zero)
    (fun k hk => mem_names.mpr (mem_colKeys_of_contains hk.1)) ht

theorem ActionOf.part_eq_sum (h : ActionOf p q A z w) (ht : ∀ k, A.contains i k ∧ z.contains k → k ∈ t) :
    w.part p i = ∑ k ∈ t, A.block p q i k *ᵥ z.part q k := by
  rw [h.part_eq]
  exact sum_eq_sum_of_support (fun k => block_mulVec_eq_zero)
    (fun k hk => List.mem_toFinset.mpr (BlockVector.mem_keys.mpr hk.2)) ht

theorem ProductOf.action_eq (hC : ProductOf p q s A.names A B C) (hu : ActionOf p s C x u) (hw : ActionOf q s B x w)
    (hv : ActionOf p q A w v) : u = v := by
  have hkeys : u.keys = v.keys := Keyed.keys_eq_keys fun i => by
    refine (hu.contains_iff i).trans (Iff.trans ?_ (hv.contains_iff i).symm)
    simp only [hC.contains_iff, hw.contains_iff]
    tauto
  refine BlockVector.eq_of_part hu.conforms hv.conforms hkeys fun i _ => ?_
  have hnames : ∀ k, A.contains i k ∧ w.contains k → k ∈ A.names := fun k hk =>
    mem_names.mpr (mem_colKeys_of_contains hk.1)
  calc u.part p i
      = ∑ l ∈ x.keys.toFinset, (∑ k ∈ A.names, A.block p q i k * B.block q s k l) *ᵥ x.part s l := by
        rw [hu.part_eq]
        exact Finset.sum_congr rfl fun l _ => by rw [hC.block_eq]
    _ = ∑ l ∈ x.keys.toFinset, ∑ k ∈ A.names, A.block p q i k *ᵥ B.block q s k l *ᵥ x.part s l := by
        refine Finset.sum_congr rfl fun l _ => ?_
        rw [sum_mulVec]
        exact Finset.sum_congr rfl fun k _ => (mulVec_mulVec _ _ _).symm
    _ = ∑ k ∈ A.names, A.block p q i k *ᵥ w.part q k := by
        rw [Finset.sum_comm]
        exact Finset.sum_congr rfl fun k _ => by rw [hw.part_eq, mulVec_sum]
    _ = v.part p i := (hv.part_eq_sum hnames).symm

/-- `(A B) x` and `A (B x)`. -/
def bracketings (A B : BlockMatrix F) (x : BlockVector F) : Outcome ε (BlockVector F × BlockVector F) := do
  let C ← A.mul B
  let u ← C.apply x
  let w ← B.apply x
  let v ← A.apply w
  return (u, v)

def stageDim (k : String) : ℕ := if k = "a" ∨ k = "l" then 1 else if k = "m" then 3 else 2

/-- Two of the columns meet a row of `stageRight`, one does not. -/
def stageLeft : BlockMatrix ℤ :=
  (((BlockMatrix.empty.set "a" "k" (.ofEntries 1 2 fun _ j => (j : ℤ) + 1)).set "b" "k" (.ofScalar 2 3)).set "b" "l"
    (.ofEntries 2 1 fun i _ => (i : ℤ) - 4)).set "a" "m" (.ofEntries 1 3 fun _ _ => 7)

/-- Two of the rows meet a column of `stageLeft`, one does not. -/
def stageRight : BlockMatrix ℤ :=
  ((BlockMatrix.empty.set "k" "c" (.ofDiagonal #[2, -1])).set "l" "c"
    (.kron (.ofScalar 1 5) (.ofEntries 1 2 fun _ j => (j : ℤ) + 2))).set "n" "c" (.ofScalar 2 9)

theorem consistent_stages : stageLeft.Consistent stageDim stageDim ∧ stageRight.Consistent stageDim stageDim := by
  have hempty := Consistent.empty (F := ℤ) stageDim stageDim
  constructor
  · exact (((hempty.set ⟨rfl, rfl⟩).set ⟨rfl, rfl⟩).set ⟨rfl, rfl⟩).set ⟨rfl, rfl⟩
  · exact ((hempty.set ⟨rfl, rfl⟩).set ⟨rfl, rfl⟩).set ⟨rfl, rfl⟩

def stageSegment (k : String) (segment : Array ℤ) : BlockVector ℤ := ⟨Keyed.empty.insert k segment⟩

theorem conforms_stageSegment {k : String} {segment : Array ℤ} (h : segment.size = stageDim k) :
    (stageSegment k segment).Conforms stageDim :=
  (BlockVector.Conforms.empty stageDim).insert h

/-- One of the segments meets a column of `stageLeft`. -/
def stageOperand : BlockVector ℤ := ⟨(stageSegment "l" #[6]).segments.insert "n" #[3, 4]⟩

theorem conforms_stageOperand : stageOperand.Conforms stageDim := (conforms_stageSegment rfl).insert rfl

end BlockElimination.BlockMatrix
