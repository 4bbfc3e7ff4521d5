import BlockElimination.Proofs.BlockMatrix.Product

/-!
# Transposes of products and actions

A transpose turns a product around, though the two sides multiply different representations in a different order. It
moves a matrix from one side of an inner product to the other, whichever segments are missing.
-/
namespace BlockElimination.BlockMatrix

open Matrix

variable {F ε : Type} [CommRing F] [DecidableEq F] {A B C L R AT BT : BlockMatrix F} {p q s : String → ℕ}
  {u w x y : BlockVector F}

/-- At each place there is a block in both or in neither, and two blocks at one place are the same matrix. -/
def SameBlocks (A B : BlockMatrix F) : Prop :=
  ∀ i j, (A.contains i j ↔ B.contains i j) ∧
    ∀ K L, A.get? i j = some K → B.get? i j = some L → K.SameMatrix L

theorem Conforms.sameBlocks (hA : A.Conforms p q) (hB : B.Conforms p q)
    (hcontains : ∀ i j, A.contains i j ↔ B.contains i j) (hblock : ∀ i j, A.block p q i j = B.block p q i j) :
    SameBlocks A B := by
  refine fun i j => ⟨hcontains i j, fun K L hK hL => ?_⟩
  have hmatrix := hblock i j
  rw [block_of_get? hK, block_of_get? hL] at hmatrix
  exact (hA.sized hK).sameMatrix (hB.sized hL) hmatrix

theorem ProductOf.sameBlocks_transpose (hC : ProductOf p q s A.names A B C) (hL : L.Conforms s p)
    (hLget : ∀ i j, L.get? j i = (C.get? i j).map LinearMap.transpose)
    (hAT : ∀ i j, AT.get? j i = (A.get? i j).map LinearMap.transpose)
    (hBT : ∀ i j, BT.get? j i = (B.get? i j).map LinearMap.transpose) (hR : ProductOf s q p BT.names BT AT R) :
    SameBlocks L R := by
  refine hL.sameBlocks hR.conforms (fun j i => ?_) fun j i => ?_
  · rw [contains_of_transpose hLget, hC.contains_iff, hR.contains_iff]
    refine exists_congr fun k => ?_
    rw [contains_of_transpose hAT, contains_of_transpose hBT, and_comm]
  · have hnames : ∀ k, BT.contains j k ∧ AT.contains k i → k ∈ A.names := fun k hk => by
      rw [contains_of_transpose hAT] at hk
      exact mem_names.mpr (mem_colKeys_of_contains hk.2)
    calc L.block s p j i
        = (∑ k ∈ A.names, A.block p q i k * B.block q s k j)ᵀ := by rw [block_of_transpose hLget, hC.block_eq]
      _ = ∑ k ∈ A.names, (B.block q s k j)ᵀ * (A.block p q i k)ᵀ := by
          rw [transpose_sum]
          exact Finset.sum_congr rfl fun k _ => transpose_mul _ _
      _ = R.block s p j i := by
          rw [hR.block_eq_sum hnames]
          exact Finset.sum_congr rfl fun k _ => by rw [block_of_transpose hBT, block_of_transpose hAT]

/-- `yᵀ A x`, over the segments that there are. -/
def pairing (A : BlockMatrix F) (p q : String → ℕ) (y x : BlockVector F) : F :=
  ∑ i ∈ y.keys.toFinset, ∑ k ∈ x.keys.toFinset, y.part p i ⬝ᵥ A.block p q i k *ᵥ x.part q k

theorem ActionOf.yields_dot_left (hu : ActionOf p q A x u) (hy : y.Conforms p) :
    Yields (u.dot y) (· = A.pairing p q y x) := by
  refine (hu.conforms.yields_dot hy fun i hi => List.mem_toFinset.mpr (BlockVector.mem_keys.mpr hi.2)).mono ?_
  rintro _ rfl
  refine Finset.sum_congr rfl fun i _ => ?_
  rw [hu.part_eq, dotProduct_comm, dotProduct_sum]

theorem ActionOf.yields_dot_right (hw : ActionOf q p AT y w) (hx : x.Conforms q)
    (hAT : ∀ i j, AT.get? j i = (A.get? i j).map LinearMap.transpose) :
    Yields (x.dot w) (· = A.pairing p q y x) := by
  refine (hx.yields_dot hw.conforms fun i hi => List.mem_toFinset.mpr (BlockVector.mem_keys.mpr hi.1)).mono ?_
  rintro _ rfl
  rw [pairing, Finset.sum_comm]
  refine Finset.sum_congr rfl fun k _ => ?_
  rw [hw.part_eq, dotProduct_sum]
  refine Finset.sum_congr rfl fun i _ => ?_
  rw [block_of_transpose hAT, mulVec_transpose, dotProduct_comm, ← dotProduct_mulVec]

/-- `(A B)ᵀ` and `Bᵀ Aᵀ`. -/
def transposedProducts (A B : BlockMatrix F) : Outcome ε (BlockMatrix F × BlockMatrix F) := do
  let C ← A.mul B
  let L ← C.transpose
  let BT ← B.transpose
  let AT ← A.transpose
  let R ← BT.mul AT
  return (L, R)

/-- `(A x) · y` and `x · (Aᵀ y)`. -/
def adjointDots (A : BlockMatrix F) (x y : BlockVector F) : Outcome ε (F × F) := do
  let u ← A.apply x
  let l ← u.dot y
  let AT ← A.transpose
  let w ← AT.apply y
  let r ← x.dot w
  return (l, r)

/-- Where the blocks have the sizes of their places, a transpose turns a product around, block by block, and moves to
the other side of an inner product. -/
theorem transpose_reverses (hA : A.Consistent p q) (hB : B.Consistent q s) (hx : x.Conforms q) (hy : y.Conforms p) :
    (transposedProducts A B : Outcome ε (BlockMatrix F × BlockMatrix F)).Returns (fun t => SameBlocks t.1 t.2) ∧
    (adjointDots A x y : Outcome ε (F × F)).Returns fun d => d.1 = d.2 ∧ d.1 = A.pairing p q y x := by
  constructor
  · refine (hA.yields_productOf hB fun k => mem_names.mpr).bind fun C hC => ?_
    refine Outcome.Yields.lift_bind hC.conforms.consistent.yields_transposed fun L hL => ?_
    refine Outcome.Yields.lift_bind hB.yields_transposed fun BT hBT => ?_
    refine Outcome.Yields.lift_bind hA.yields_transposed fun AT hAT => ?_
    refine (hBT.1.consistent.yields_productOf hAT.1.consistent fun k => mem_names.mpr).bind fun R hR => ?_
    exact hC.sameBlocks_transpose hL.1 hL.2 hAT.2 hBT.2 hR
  · refine (hA.yields_actionOf hx).bind fun u hu => ?_
    refine Outcome.Yields.lift_bind (hu.yields_dot_left hy) ?_
    rintro l rfl
    refine Outcome.Yields.lift_bind hA.yields_transposed fun AT hAT => ?_
    refine (hAT.1.consistent.yields_actionOf hy).bind fun w hw => ?_
    refine Outcome.Yields.lift_bind (hw.yields_dot_right hx hAT.2) ?_
    rintro r rfl
    exact ⟨rfl, rfl⟩

theorem stage_reverses : ∃ t d, (transposedProducts stageLeft stageRight : Outcome Unit _).result = .ok t ∧
    SameBlocks t.1 t.2 ∧
    (adjointDots stageLeft stageOperand (stageSegment "b" #[2, -1]) : Outcome Unit _).result = .ok d ∧
    d.1 = d.2 ∧ d.1 = stageLeft.pairing stageDim stageDim (stageSegment "b" #[2, -1]) stageOperand := by
  have hy : (stageSegment "b" #[2, -1]).Conforms stageDim := conforms_stageSegment rfl
  obtain ⟨hproducts, hdots⟩ := transpose_reverses (ε := Unit) consistent_stages.1 consistent_stages.2
    conforms_stageOperand hy
  obtain ⟨t, ht⟩ := exists_eq_ok
    (show (transposedProducts stageLeft stageRight : Outcome Unit _).result.toBool = true by decide +kernel)
  obtain ⟨d, hd⟩ := exists_eq_ok
    (show (adjointDots stageLeft stageOperand (stageSegment "b" #[2, -1]) :
      Outcome Unit _).result.toBool = true by decide +kernel)
  exact ⟨t, d, ht, hproducts.of_result_eq_ok ht, hd, hdots.of_result_eq_ok hd⟩

end BlockElimination.BlockMatrix
