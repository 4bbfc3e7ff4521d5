import BlockElimination.Proofs.BlockMatrix.Arithmetic
import BlockElimination.Proofs.Factor.Pivot

/-!
# One elimination

What eliminating a name does to the state, place by place: `L` gains the column `V D⁻¹`, the inverse of the diagonal
block is stored, and the rest loses the name and `V D⁻¹ Vᵀ`. All later facts about runs are drawn from this one.
-/
namespace BlockElimination.Factor

open Matrix BlockMatrix

section Erasure
variable {F : Type} {A : BlockMatrix F} {m n : String → ℕ}

def erasePair (key : String) (A : BlockMatrix F) (row : String) : BlockMatrix F :=
  if row = key then A.erase row key else (A.erase row key).erase key row

theorem exists_eraseKey_eq_foldl (A : BlockMatrix F) (key : String) :
    ∃ rows : List String, eraseKey A key = rows.foldl (erasePair key) A ∧ ∀ r, r ∈ rows ↔ A.contains r key := by
  refine ⟨_, rfl, fun r => ?_⟩
  cases h : A.column? key with
  | none => simp [contains, get?, h]
  | some column => simp [contains, get?, h, Keyed.mem_keys, Keyed.contains]

theorem get?_erasePair (key row i j : String) (A : BlockMatrix F) :
    (erasePair key A row).get? i j = if i = row ∧ j = key ∨ i = key ∧ j = row then none else A.get? i j := by
  unfold erasePair
  split <;> simp only [get?_erase] <;> grind

theorem get?_foldl_erasePair (key i j : String) (rows : List String) (A : BlockMatrix F) :
    (rows.foldl (erasePair key) A).get? i j =
      if i ∈ rows ∧ j = key ∨ i = key ∧ j ∈ rows then none else A.get? i j := by
  induction rows generalizing A with
  | nil => simp
  | cons row rows ih =>
    rw [List.foldl_cons, ih, get?_erasePair]
    simp only [List.mem_cons]
    grind

theorem conforms_foldl_erasePair (h : A.Conforms m n) (key : String) (rows : List String) :
    (rows.foldl (erasePair key) A).Conforms m n := by
  induction rows generalizing A with
  | nil => exact h
  | cons row rows ih =>
    refine ih ?_
    unfold erasePair
    split
    · exact h.erase row key
    · exact (h.erase row key).erase key row

theorem conforms_eraseKey (h : A.Conforms m n) (key : String) : (eraseKey A key).Conforms m n := by
  obtain ⟨rows, hrows, -⟩ := exists_eraseKey_eq_foldl A key
  rw [hrows]
  exact conforms_foldl_erasePair h key rows

/-- Of the row of the name, those blocks go whose transposed places are taken. -/
theorem get?_eraseKey_eq_ite (A : BlockMatrix F) (key i j : String) :
    (eraseKey A key).get? i j = if j = key ∨ i = key ∧ A.contains j key then none else A.get? i j := by
  obtain ⟨rows, hrows, hmem⟩ := exists_eraseKey_eq_foldl A key
  rw [hrows, get?_foldl_erasePair]
  simp only [hmem]
  by_cases hj : j = key
  · subst hj
    by_cases hi : A.contains i j
    · simp [hi]
    · simp [get?_eq_none hi]
  · simp [hj]

/-- Where the pattern is symmetric, the row of the name goes with its column. -/
theorem get?_eraseKey (hsymm : ∀ {i j}, A.contains i j → A.contains j i) (key i j : String) :
    (eraseKey A key).get? i j = if i = key ∨ j = key then none else A.get? i j := by
  rw [get?_eraseKey_eq_ite]
  by_cases hi : i = key
  · subst hi
    by_cases hc : A.contains j i
    · simp [hc]
    · simp [get?_eq_none fun h => hc (hsymm h)]
  · simp [hi]

theorem contains_eraseKey (hsymm : ∀ {i j}, A.contains i j → A.contains j i) {key i j : String} :
    (eraseKey A key).contains i j ↔ i ≠ key ∧ j ≠ key ∧ A.contains i j := by
  rw [contains, get?_eraseKey hsymm]
  by_cases hi : i = key
  · simp [hi]
  · by_cases hj : j = key <;> simp [contains, hi, hj]

/-- `V` is the column of `key` without its diagonal block. -/
structure OffDiagonal (m n : String → ℕ) (A : BlockMatrix F) (key : String) (V : BlockMatrix F) : Prop where
  conforms : V.Conforms m n
  get?_eq : ∀ i j, V.get? i j = if i ≠ key ∧ j = key then A.get? i key else none

/-- Only the sizes in the column matter. -/
theorem yields_offDiagonal_of [Arith F] {key : String} (h : ∀ {i K}, A.get? i key = some K → K.Sized (m i) (n key)) :
    Yields (offDiagonal A key) (OffDiagonal m n A key) := by
  refine ((Conforms.empty m n).yields_insertAll_fresh ?_ ?_ fun _ _ hc => nomatch contains_iff.mp hc).mono ?_
  · intro t ht
    obtain ⟨⟨row, a⟩, ha, rfl⟩ := List.mem_map.mp ht
    exact h (mem_offDiagonalEntries.mp ha).2
  · have := (nodup_offDiagonalEntries A key).map (f := fun row => (row, key)) fun _ _ e => congrArg Prod.fst e
    rw [List.map_map] at this ⊢
    exact this
  · rintro V ⟨hV, hget⟩
    refine ⟨hV, fun i j => Option.ext fun K => ?_⟩
    rw [hget, get?_empty]
    simp only [reduceCtorEq, false_or, List.mem_map, Prod.exists, Prod.mk.injEq, mem_offDiagonalEntries]
    by_cases hplace : i ≠ key ∧ j = key
    · obtain ⟨hi, rfl⟩ := hplace
      rw [if_pos ⟨hi, rfl⟩]
      constructor
      · rintro ⟨r, a, ⟨-, ha⟩, rfl, -, rfl⟩
        exact ha
      · exact fun ha => ⟨i, K, ⟨hi, ha⟩, rfl, rfl, rfl⟩
    · rw [if_neg hplace]
      refine iff_of_false ?_ fun e => nomatch e
      rintro ⟨r, a, ⟨hr, -⟩, rfl, rfl, -⟩
      exact hplace ⟨hr, rfl⟩

theorem yields_offDiagonal [Arith F] (h : A.Conforms m n) (key : String) :
    Yields (offDiagonal A key) (OffDiagonal m n A key) :=
  yields_offDiagonal_of h.sized

theorem OffDiagonal.contains_iff {key : String} {V : BlockMatrix F} (h : OffDiagonal m n A key V) (i j : String) :
    V.contains i j ↔ i ≠ key ∧ j = key ∧ A.contains i key := by
  rw [contains, h.get?_eq]
  split
  case isTrue hplace => simp [hplace, contains]
  case isFalse hplace => exact iff_of_false Bool.false_ne_true fun e => hplace ⟨e.1, e.2.1⟩

theorem OffDiagonal.mem_singleton {key : String} {V : BlockMatrix F} (h : OffDiagonal m n A key V) :
    ∀ k ∈ V.colKeys, k ∈ ({key} : Finset String) := fun k hk => by
  obtain ⟨i, hi⟩ := h.conforms.occupied k hk
  exact Finset.mem_singleton.mpr ((h.contains_iff i k).mp hi).2.1

theorem OffDiagonal.block_key [CommRing F] [DecidableEq F] {key : String} {V : BlockMatrix F}
    (h : OffDiagonal m n A key V) (i : String) :
    V.block m n i key = if i = key then 0 else A.block m n i key := by
  rw [block, h.get?_eq]
  split <;> simp_all [block]

end Erasure

section Elimination
variable {F : Type} [Field F] [LinearOrder F] {dim : String → ℕ}

/-- `s'` is `s` after the elimination of `key` with the inverse `P` of its diagonal block. -/
structure Eliminates (dim : String → ℕ) (s : State F) (key : String) (P : Matrix (Fin (dim key)) (Fin (dim key)) F)
    (s' : State F) : Prop where
  order_eq : s'.order = s.order ++ [key]
  dims_eq : s'.dims = s.dims ++ [dim key]
  lower_conforms : s'.lower.Conforms dim dim
  lower_contains : ∀ i j, s'.lower.contains i j ↔ s.lower.contains i j ∨ i ≠ key ∧ j = key ∧ s.rest.contains i key
  lower_key : ∀ i, s'.lower.block dim dim i key =
    s.lower.block dim dim i key + if i = key then 0 else s.rest.block dim dim i key * P
  lower_other : ∀ i j, j ≠ key → s'.lower.block dim dim i j = s.lower.block dim dim i j
  diagInv_conforms : s'.diagInv.Conforms dim dim
  diagInv_contains : ∀ i j, s'.diagInv.contains i j ↔ s.diagInv.contains i j ∨ i = key ∧ j = key
  diagInv_key : s'.diagInv.block dim dim key key = s.diagInv.block dim dim key key + P
  diagInv_other : ∀ k, k ≠ key → s'.diagInv.block dim dim k k = s.diagInv.block dim dim k k
  rest_conforms : s'.rest.Conforms dim dim
  rest_contains : ∀ i j, s'.rest.contains i j ↔
    i ≠ key ∧ j ≠ key ∧ (s.rest.contains i j ∨ s.rest.contains i key ∧ s.rest.contains j key)
  rest_block : ∀ i j, i ≠ key → j ≠ key → s'.rest.block dim dim i j =
    s.rest.block dim dim i j - s.rest.block dim dim i key * P * (s.rest.block dim dim j key)ᵀ
  rest_kept : ∀ {i j K}, s'.rest.get? i j = some K → K.kind = .kron → s.rest.contains i j → s.rest.get? i j = some K

variable {s : State F} {key : String} {inv : LinearMap F} {V VD VT U lower diagInv rest : BlockMatrix F}

/-- The matrix with one diagonal block. -/
def single (key : String) (inv : LinearMap F) : BlockMatrix F := BlockMatrix.empty.set key key inv

omit [Field F] [LinearOrder F] in
theorem contains_single {i j : String} : (single key inv).contains i j ↔ i = key ∧ j = key := by
  rw [single, contains_set]
  exact or_iff_left fun h => nomatch BlockMatrix.contains_iff.mp h

theorem block_single : (single key inv).block dim dim key key = inv.matrix (dim key) (dim key) := by
  rw [single, block_set, if_pos ⟨rfl, rfl⟩]

/-- `VD` is the column of `key` without its diagonal block, times `P`. -/
structure ScaledColumn (dim : String → ℕ) (A : BlockMatrix F) (key : String)
    (P : Matrix (Fin (dim key)) (Fin (dim key)) F) (VD : BlockMatrix F) : Prop where
  contains_iff : ∀ i j, VD.contains i j ↔ i ≠ key ∧ j = key ∧ A.contains i key
  block_key : ∀ i, VD.block dim dim i key = if i = key then 0 else A.block dim dim i key * P

theorem OffDiagonal.mul_single {A : BlockMatrix F} (hV : OffDiagonal dim dim A key V)
    (hVD : ProductOf dim dim dim {key} V (single key inv) VD) :
    ScaledColumn dim A key (inv.matrix (dim key) (dim key)) VD := by
  constructor
  · intro i j
    rw [hVD.contains_iff]
    constructor
    · rintro ⟨k, hi, hj⟩
      obtain ⟨hik, -, hc⟩ := (hV.contains_iff i k).mp hi
      exact ⟨hik, (contains_single.mp hj).2, hc⟩
    · rintro ⟨hik, rfl, hc⟩
      exact ⟨j, (hV.contains_iff i j).mpr ⟨hik, rfl, hc⟩, contains_single.mpr ⟨rfl, rfl⟩⟩
  · intro i
    rw [hVD.block_eq, Finset.sum_singleton, block_single, hV.block_key]
    split
    · rw [Matrix.zero_mul]
    · rfl

/-- The pattern of `V D⁻¹ Vᵀ`. -/
theorem ScaledColumn.contains_update {A : BlockMatrix F} {P : Matrix (Fin (dim key)) (Fin (dim key)) F}
    (hVD : ScaledColumn dim A key P VD) (hV : OffDiagonal dim dim A key V)
    (hVT : ∀ i j, VT.get? j i = (V.get? i j).map LinearMap.transpose) (hU : ProductOf dim dim dim {key} VD VT U)
    {i j : String} : U.contains i j ↔ (i ≠ key ∧ A.contains i key) ∧ j ≠ key ∧ A.contains j key := by
  rw [hU.contains_iff]
  simp only [hVD.contains_iff, contains_of_transpose hVT, hV.contains_iff]
  grind

/-- The blocks of `V D⁻¹ Vᵀ`. -/
theorem ScaledColumn.block_update {A : BlockMatrix F} {P : Matrix (Fin (dim key)) (Fin (dim key)) F}
    (hVD : ScaledColumn dim A key P VD) (hV : OffDiagonal dim dim A key V)
    (hVT : ∀ i j, VT.get? j i = (V.get? i j).map LinearMap.transpose) (hU : ProductOf dim dim dim {key} VD VT U)
    {i j : String} (hi : i ≠ key) (hj : j ≠ key) :
    U.block dim dim i j = A.block dim dim i key * P * (A.block dim dim j key)ᵀ := by
  rw [hU.block_eq, Finset.sum_singleton, hVD.block_key, block_of_transpose hVT, hV.block_key, if_neg hi, if_neg hj]

theorem Eliminates.of_parts (hsymm : ∀ {i j}, s.rest.contains i j → s.rest.contains j i)
    (hV : OffDiagonal dim dim s.rest key V) (hVD : ProductOf dim dim dim {key} V (single key inv) VD)
    (hlower : SumOf dim dim 1 s.lower VD lower) (hdiag : SumOf dim dim 1 s.diagInv (single key inv) diagInv)
    (hVT : ∀ i j, VT.get? j i = (V.get? i j).map LinearMap.transpose) (hU : ProductOf dim dim dim {key} VD VT U)
    (hrest : SumOf dim dim (-1) (eraseKey s.rest key) U rest) :
    Eliminates dim s key (inv.matrix (dim key) (dim key))
      ⟨rest, lower, diagInv, s.order ++ [key], s.dims ++ [dim key]⟩ := by
  have hcolumn := hV.mul_single hVD
  have hupdate : ∀ i j, U.contains i j ↔ (i ≠ key ∧ s.rest.contains i key) ∧ j ≠ key ∧ s.rest.contains j key :=
    fun i j => hcolumn.contains_update hV hVT hU
  constructor
  · rfl
  · rfl
  · exact hlower.conforms
  · intro i j
    rw [hlower.contains_iff, hcolumn.contains_iff]
  · intro i
    rw [hlower.block_eq, one_smul, hcolumn.block_key]
  · intro i j hj
    have hnot : ¬VD.contains i j := fun hc => hj ((hcolumn.contains_iff i j).mp hc).2.1
    rw [hlower.block_eq, block_of_not_contains hnot, smul_zero, add_zero]
  · exact hdiag.conforms
  · intro i j
    rw [hdiag.contains_iff, contains_single]
  · rw [hdiag.block_eq, one_smul, block_single]
  · intro k hk
    have hnot : ¬(single key inv).contains k k := fun hc => hk (contains_single.mp hc).1
    rw [hdiag.block_eq, block_of_not_contains hnot, smul_zero, add_zero]
  · exact hrest.conforms
  · intro i j
    rw [hrest.contains_iff, contains_eraseKey hsymm, hupdate]
    grind
  · intro i j hi hj
    have hblock : (eraseKey s.rest key).block dim dim i j = s.rest.block dim dim i j := by
      rw [block, get?_eraseKey hsymm, if_neg (not_or.mpr ⟨hi, hj⟩), block]
    rw [hrest.block_eq, hblock, hcolumn.block_update hV hVT hU hi hj, neg_one_smul, sub_eq_add_neg]
  · intro i j K hK hkron hc
    obtain ⟨hi, hj⟩ : i ≠ key ∧ j ≠ key := by
      rcases (hrest.contains_iff i j).mp (BlockMatrix.contains_iff.mpr ⟨K, hK⟩) with h | h
      · obtain ⟨hi, hj, -⟩ := (contains_eraseKey hsymm).mp h
        exact ⟨hi, hj⟩
      · obtain ⟨⟨hi, -⟩, hj, -⟩ := (hupdate i j).mp h
        exact ⟨hi, hj⟩
    have hkept := (hrest.kept hK hkron ((contains_eraseKey hsymm).mpr ⟨hi, hj, hc⟩)).1
    rwa [get?_eraseKey hsymm, if_neg (not_or.mpr ⟨hi, hj⟩)] at hkept

variable [IsStrictOrderedRing F] {par : FactorParameters F}

theorem yields_step (htol : 0 ≤ par.tolerance) (hrest : s.rest.BlockSymmetric dim) (hlower : s.lower.Conforms dim dim)
    (hdiag : s.diagInv.Conforms dim dim) :
    (step par s).Yields
      (fun s' => ∃ key ∈ s.rest.colKeys, ∃ P, s.rest.contains key key ∧ s.rest.block dim dim key key * P = 1 ∧
        Eliminates dim s key P s')
      fun _ => s.rest.colKeys = [] ∨ Stuck par.tolerance s.rest dim := by
  refine ((yields_nextPivot par.rule s.rest).mono (fun _ h => h) fun _ h => h.stuck).bind fun ⟨key, fill⟩ hkey => ?_
  refine Outcome.Yields.report_bind ?_
  refine ((yields_pivotInverse htol hrest hkey).mono (fun _ h => h) fun _ h => .inr h).bind
    fun inv ⟨hinv, hcontains, hone⟩ => ?_
  refine Outcome.Yields.lift_bind (LinearMap.yields_colCount hinv) ?_
  rintro _ rfl
  refine Outcome.Yields.lift_bind ((Conforms.empty dim dim).yields_insertOrAdd hinv) ?_
  rintro _ ⟨L, rfl, hL, hLe, -⟩
  rw [show (BlockMatrix.empty : BlockMatrix F).block dim dim key key = 0 from rfl, zero_add] at hLe
  have hD : (single key L).Conforms dim dim := (Conforms.empty dim dim).set hL
  refine Outcome.Yields.lift_bind (yields_offDiagonal hrest.conforms key) fun V hV => ?_
  refine (hV.conforms.yields_mul hD hV.mem_singleton).bind fun VD hVD => ?_
  refine Outcome.Yields.lift_bind (hlower.yields_addScaled hVD.conforms 1) fun lower hlower' => ?_
  refine Outcome.Yields.lift_bind (hdiag.yields_addScaled hD 1) fun diagInv hdiag' => ?_
  refine Outcome.Yields.lift_bind hV.conforms.yields_transpose fun VT hVT => ?_
  have hVDkeys : ∀ k ∈ VD.colKeys, k ∈ ({key} : Finset String) := fun k hk => by
    obtain ⟨i, hi⟩ := hVD.conforms.occupied k hk
    exact Finset.mem_singleton.mpr (((hV.mul_single hVD).contains_iff i k).mp hi).2.1
  refine (hVD.conforms.yields_mul hVT.1 hVDkeys).bind fun U hU => ?_
  refine Outcome.Yields.lift_bind ((conforms_eraseKey hrest.conforms key).yields_addScaled hU.conforms (-1))
    fun rest hrest' => ?_
  exact Outcome.Yields.pure_iff.mpr ⟨key, hkey, L.matrix _ _, hcontains, hLe ▸ hone,
    Eliminates.of_parts hrest.contains_comm hV hVD hlower' hdiag' hVT.2 hU hrest'⟩

end Elimination

end BlockElimination.Factor
