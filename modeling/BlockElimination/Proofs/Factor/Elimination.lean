import BlockElimination.Proofs.Factor.Step

/-!
# Runs of the elimination

The invariant says that the names are parted into eliminated ones and those of the rest, that `L` is strictly lower
triangular in the order so far, and that `A` is what the eliminated names contribute plus the rest.
-/
namespace BlockElimination.Factor

open Matrix BlockMatrix

section Shape
variable {F : Type} [Field F] [LinearOrder F] {dim : String → ℕ} {s s' : State F} {key : String}
  {P : Matrix (Fin (dim key)) (Fin (dim key)) F}

theorem Eliminates.mem_rest (h : Eliminates dim s key P s') (hrest : s.rest.BlockSymmetric dim) (k : String) :
    k ∈ s'.rest.colKeys ↔ k ∈ s.rest.colKeys ∧ k ≠ key := by
  rw [h.rest_conforms.occupied.mem_colKeys, hrest.conforms.occupied.mem_colKeys]
  simp only [h.rest_contains]
  constructor
  · rintro ⟨i, -, hk, hc | ⟨-, hc⟩⟩
    · exact ⟨⟨i, hc⟩, hk⟩
    · exact ⟨⟨key, hrest.contains_comm hc⟩, hk⟩
  · rintro ⟨⟨i, hc⟩, hk⟩
    -- A column that only met the eliminated name is filled at its diagonal.
    by_cases hi : i = key
    · subst hi
      exact ⟨k, hk, hk, .inr ⟨hrest.contains_comm hc, hrest.contains_comm hc⟩⟩
    · exact ⟨i, hi, hk, .inl hc⟩

theorem Eliminates.length_rest (h : Eliminates dim s key P s') (hrest : s.rest.BlockSymmetric dim)
    (hkey : key ∈ s.rest.colKeys) : s'.rest.colKeys.length + 1 = s.rest.colKeys.length := by
  have hnames : s.rest.names = insert key s'.rest.names := by
    ext k
    rw [Finset.mem_insert, mem_names, mem_names, h.mem_rest hrest]
    by_cases hk : k = key <;> simp [hk, hkey]
  have hnot : key ∉ s'.rest.names := fun hk => ((h.mem_rest hrest key).mp (mem_names.mp hk)).2 rfl
  rw [← card_names, ← card_names, hnames, Finset.card_insert_of_notMem hnot]

omit [LinearOrder F] in
theorem transpose_eq_of_mul_eq_one {d : ℕ} {D P : Matrix (Fin d) (Fin d) F} (hD : D.IsSymm) (h : D * P = 1) :
    Pᵀ = P := by
  have hleft : Pᵀ * D = 1 := by
    rw [← hD.eq, ← transpose_mul, h, transpose_one]
  exact left_inv_eq_right_inv hleft h

variable (hrest : s.rest.BlockSymmetric dim) (hone : s.rest.block dim dim key key * P = 1)

include hrest hone in
theorem Eliminates.symmetric (h : Eliminates dim s key P s') : s'.rest.BlockSymmetric dim := by
  have hP := transpose_eq_of_mul_eq_one (hrest.isSymm key) hone
  refine ⟨h.rest_conforms, fun {i j} hc => ?_, fun i j => ?_⟩
  · rw [h.rest_contains] at hc ⊢
    exact ⟨hc.2.1, hc.1, hc.2.2.imp hrest.contains_comm And.symm⟩
  · by_cases hplace : i ≠ key ∧ j ≠ key
    · rw [h.rest_block i j hplace.1 hplace.2, h.rest_block j i hplace.2 hplace.1, transpose_sub, transpose_mul,
        transpose_mul, transpose_transpose, hP, hrest.transposed i j, Matrix.mul_assoc]
    · have hij : ¬s'.rest.contains i j := fun hc => by
        rw [h.rest_contains] at hc
        exact hplace ⟨hc.1, hc.2.1⟩
      have hji : ¬s'.rest.contains j i := fun hc => by
        rw [h.rest_contains] at hc
        exact hplace ⟨hc.2.1, hc.1⟩
      rw [block_of_not_contains hij, block_of_not_contains hji, transpose_zero]

/-- The column of `key` in `I + L`. -/
noncomputable def pivotColumn (dim : String → ℕ) (A : BlockMatrix F) (i key : String) :
    Matrix (Fin (dim i)) (Fin (dim key)) F :=
  unit dim i key + if i = key then 0 else A.block dim dim i key * (A.block dim dim key key)⁻¹

include hrest hone in
/-- The Schur complement: what is eliminated is `W D Wᵀ` with the column `W` of `key` in `I + L`. -/
theorem Eliminates.rest_block_eq (h : Eliminates dim s key P s') (i j : String) :
    s.rest.block dim dim i j = pivotColumn dim s.rest i key * s.rest.block dim dim key key *
      (pivotColumn dim s.rest j key)ᵀ + s'.rest.block dim dim i j := by
  have hP := transpose_eq_of_mul_eq_one (hrest.isSymm key) hone
  have hself : pivotColumn dim s.rest key key = 1 := by simp [pivotColumn]
  have hother : ∀ i, i ≠ key → pivotColumn dim s.rest i key = s.rest.block dim dim i key * P := fun i hi => by
    rw [pivotColumn, unit_of_ne hi, if_neg hi, zero_add, inv_eq_right_inv hone]
  have hgone : ∀ i j, i = key ∨ j = key → s'.rest.block dim dim i j = 0 := fun i j hij =>
    block_of_not_contains fun hc => by
      rw [h.rest_contains] at hc
      exact hij.elim hc.1 hc.2.1
  have hleft : P * s.rest.block dim dim key key = 1 := mul_eq_one_comm.mp hone
  by_cases hi : i = key
  · subst hi
    rw [hself, Matrix.one_mul, hgone i j (.inl rfl), add_zero]
    by_cases hj : j = i
    · subst hj
      rw [hself, transpose_one, Matrix.mul_one]
    · rw [hother j hj, transpose_mul, hP, ← Matrix.mul_assoc, hone, Matrix.one_mul, hrest.transposed j i]
  · rw [hother i hi, Matrix.mul_assoc _ P, hleft, Matrix.mul_one]
    by_cases hj : j = key
    · subst hj
      rw [hself, transpose_one, Matrix.mul_one, hgone i j (.inr rfl), add_zero]
    · rw [hother j hj, transpose_mul, hP, h.rest_block i j hi hj, ← Matrix.mul_assoc]
      abel

include hrest hone in
/-- The form of what is left at `x` is that of what was there at an extension of `x`, on which the pivot vanishes. -/
theorem Eliminates.exists_quadratic_eq (h : Eliminates dim s key P s') (x : ∀ k, Fin (dim k) → F) :
    ∃ y : ∀ k, Fin (dim k) → F, (∀ k, k ≠ key → y k = x k) ∧
      s.rest.quadratic dim y = s'.rest.quadratic dim x := by
  have hsub : s'.rest.names ⊆ insert key s.rest.names := fun k hk => by
    rw [mem_names, h.mem_rest hrest] at hk
    exact Finset.mem_insert_of_mem (mem_names.mpr hk.1)
  have hself : pivotColumn dim s.rest key key = 1 := by simp [pivotColumn]
  obtain ⟨y, hy, hkey⟩ : ∃ y : ∀ k, Fin (dim k) → F, (∀ k, k ≠ key → y k = x k) ∧
      y key = -∑ i ∈ s.rest.names.erase key, (pivotColumn dim s.rest i key)ᵀ *ᵥ x i :=
    ⟨Function.update x key _, fun k hk => Function.update_of_ne hk .., Function.update_self ..⟩
  refine ⟨y, hy, ?_⟩
  have hzero : ∑ i ∈ insert key s.rest.names, (pivotColumn dim s.rest i key)ᵀ *ᵥ y i = 0 := by
    have hrestSum : ∑ i ∈ s.rest.names.erase key, (pivotColumn dim s.rest i key)ᵀ *ᵥ y i =
        ∑ i ∈ s.rest.names.erase key, (pivotColumn dim s.rest i key)ᵀ *ᵥ x i :=
      Finset.sum_congr rfl fun i hi => by rw [hy i (Finset.ne_of_mem_erase hi)]
    rw [← Finset.insert_erase (Finset.mem_insert_self key s.rest.names), Finset.erase_insert_eq_erase,
      Finset.sum_insert (Finset.notMem_erase key _), hself, transpose_one, one_mulVec, hkey, hrestSum, neg_add_cancel]
  have hsplit := sum_quadratic_add (insert key s.rest.names) {key} (B := s.rest.block dim dim)
    (C := s'.rest.block dim dim) (W := pivotColumn dim s.rest) (D := fun k => s.rest.block dim dim k k)
    (fun i j => by rw [Finset.sum_singleton]; exact h.rest_block_eq hrest hone i j) y
  rw [Finset.sum_singleton, hzero, zero_dotProduct, zero_add] at hsplit
  rw [hrest.quadratic_eq_sum (Finset.subset_insert key _), hsplit,
    ← (h.symmetric hrest hone).quadratic_eq_sum hsub, quadratic, quadratic]
  have hnames : ∀ k ∈ s'.rest.names, y k = x k := fun k hk =>
    hy k ((h.mem_rest hrest k).mp (mem_names.mp hk)).2
  refine Finset.sum_congr rfl fun i hi => Finset.sum_congr rfl fun j hj => ?_
  rw [hnames i hi, hnames j hj]

include hrest hone in
theorem Eliminates.pivotable {tol : F} (h : Eliminates dim s key P s') (hpiv : Pivotable tol s.rest dim) :
    Pivotable tol s'.rest dim := by
  refine ⟨fun k hk => ?_, fun x ⟨k, hk, p, hp⟩ => ?_⟩
  · obtain ⟨hk, hne⟩ := (h.mem_rest hrest k).mp hk
    obtain ⟨K, hK, hkron⟩ := hpiv.diagonal k hk
    have hc : s.rest.contains k k := contains_iff.mpr ⟨K, hK⟩
    obtain ⟨K', hK'⟩ := contains_iff.mp ((h.rest_contains k k).mpr ⟨hne, hne, .inl hc⟩)
    refine ⟨K', hK', fun hkind => hkron ?_⟩
    rwa [← Option.some.inj ((h.rest_kept hK' hkind hc).symm.trans hK)]
  · obtain ⟨hk, hne⟩ := (h.mem_rest hrest k).mp hk
    obtain ⟨y, hy, hform⟩ := h.exists_quadratic_eq hrest hone x
    rw [← hform]
    exact hpiv.large y ⟨k, hk, p, by rw [hy k hne, hp]⟩

end Shape

section Run
variable {F : Type} [Field F] [LinearOrder F] {A : BlockMatrix F} {dim : String → ℕ} {s s' : State F}

/-- The block `(i, k)` of `I + L`. -/
def unitLower (dim : String → ℕ) (L : BlockMatrix F) (i k : String) : Matrix (Fin (dim i)) (Fin (dim k)) F :=
  unit dim i k + L.block dim dim i k

/-- The block `(k, k)` of `D`, of which the inverse is stored. -/
noncomputable def pivotBlock (dim : String → ℕ) (diagInv : BlockMatrix F) (k : String) :
    Matrix (Fin (dim k)) (Fin (dim k)) F :=
  (diagInv.block dim dim k k)⁻¹

/-- What holds of every state that is reached from `A`. -/
structure Invariant (A : BlockMatrix F) (dim : String → ℕ) (s : State F) : Prop where
  rest : s.rest.BlockSymmetric dim
  nodup : s.order.Nodup
  mem_iff : ∀ k, k ∈ A.colKeys ↔ k ∈ s.order ∨ k ∈ s.rest.colKeys
  disjoint : ∀ k ∈ s.order, k ∉ s.rest.colKeys
  dims_eq : s.dims = s.order.map dim
  lower : s.lower.Conforms dim dim
  before : ∀ {i j}, s.lower.contains i j → i ∈ A.colKeys ∧ ∃ p, s.order[p]? = some j ∧ i ∉ s.order.take (p + 1)
  diagInv : s.diagInv.Conforms dim dim
  diagInv_contains : ∀ i j, s.diagInv.contains i j ↔ i = j ∧ j ∈ s.order
  isUnit : ∀ k ∈ s.order, IsUnit (s.diagInv.block dim dim k k)
  block_eq : ∀ i j, A.block dim dim i j = ∑ k ∈ s.order.toFinset,
    unitLower dim s.lower i k * pivotBlock dim s.diagInv k * (unitLower dim s.lower j k)ᵀ + s.rest.block dim dim i j

theorem Invariant.start (hA : A.BlockSymmetric dim) : Invariant A dim (.start A) where
  rest := hA
  nodup := List.nodup_nil
  mem_iff k := by simp [State.start]
  disjoint k hk := nomatch hk
  dims_eq := rfl
  lower := .empty dim dim
  before h := nomatch BlockMatrix.contains_iff.mp h
  diagInv := .empty dim dim
  diagInv_contains i j := iff_of_false (fun h => nomatch BlockMatrix.contains_iff.mp h) fun h => nomatch h.2
  isUnit k hk := nomatch hk
  block_eq i j := by simp [State.start]

section Step
variable {key : String} {P : Matrix (Fin (dim key)) (Fin (dim key)) F}

theorem Invariant.not_mem_order (hs : Invariant A dim s) (hkey : key ∈ s.rest.colKeys) : key ∉ s.order :=
  fun hk => hs.disjoint key hk hkey

/-- The new column of `L` is that of the last name, and its rows are names that are left. -/
theorem Invariant.before_eliminated (hs : Invariant A dim s) (h : Eliminates dim s key P s') {i j : String}
    (hc : s'.lower.contains i j) : i ∈ A.colKeys ∧ ∃ p, s'.order[p]? = some j ∧ i ∉ s'.order.take (p + 1) := by
  rw [h.order_eq]
  rcases (h.lower_contains i j).mp hc with hc | ⟨hi, rfl, hc⟩
  · obtain ⟨hiA, p, hp, hnot⟩ := hs.before hc
    have hlt : p < s.order.length := (List.getElem?_eq_some_iff.mp hp).1
    refine ⟨hiA, p, by rwa [List.getElem?_append_left hlt], ?_⟩
    rwa [List.take_append_of_le_length hlt]
  · have hrow := hs.rest.row_mem hc
    refine ⟨(hs.mem_iff i).mpr (.inr hrow), s.order.length, by simp, fun hmem => ?_⟩
    rcases List.mem_append.mp (List.mem_of_mem_take hmem) with hmem | hmem
    · exact hs.disjoint i hmem hrow
    · exact hi (List.mem_singleton.mp hmem)

theorem Invariant.diagInv_block_key (hs : Invariant A dim s) (hkey : key ∈ s.rest.colKeys)
    (h : Eliminates dim s key P s') : s'.diagInv.block dim dim key key = P := by
  have hstored : ¬s.diagInv.contains key key := fun hc =>
    hs.not_mem_order hkey ((hs.diagInv_contains key key).mp hc).2
  rw [h.diagInv_key, block_of_not_contains hstored, zero_add]

/-- What the rest has lost is the summand of the new name. -/
theorem Invariant.block_eq_eliminated (hs : Invariant A dim s) (hkey : key ∈ s.rest.colKeys)
    (hone : s.rest.block dim dim key key * P = 1) (h : Eliminates dim s key P s') (i j : String) :
    A.block dim dim i j = ∑ k ∈ s'.order.toFinset,
      unitLower dim s'.lower i k * pivotBlock dim s'.diagInv k * (unitLower dim s'.lower j k)ᵀ +
        s'.rest.block dim dim i j := by
  have hnew := hs.not_mem_order hkey
  have hcolumn : ∀ i, s.lower.block dim dim i key = 0 := fun i => block_of_not_contains fun hc => by
    obtain ⟨-, p, hp, -⟩ := hs.before hc
    exact hnew (List.mem_of_getElem? hp)
  have hother : ∀ k ∈ s.order.toFinset,
      unitLower dim s'.lower i k * pivotBlock dim s'.diagInv k * (unitLower dim s'.lower j k)ᵀ =
        unitLower dim s.lower i k * pivotBlock dim s.diagInv k * (unitLower dim s.lower j k)ᵀ := fun k hk => by
    have hne : k ≠ key := fun e => hnew (e ▸ List.mem_toFinset.mp hk)
    simp only [unitLower, pivotBlock, h.lower_other _ k hne, h.diagInv_other k hne]
  have hkeyColumn : ∀ i, unitLower dim s'.lower i key = pivotColumn dim s.rest i key := fun i => by
    rw [unitLower, h.lower_key, hcolumn, zero_add, pivotColumn, inv_eq_right_inv hone]
  have hkeyPivot : pivotBlock dim s'.diagInv key = s.rest.block dim dim key key := by
    rw [pivotBlock, hs.diagInv_block_key hkey h, inv_eq_left_inv hone]
  have horder : s'.order.toFinset = insert key s.order.toFinset := by
    rw [h.order_eq, List.toFinset_append, Finset.union_comm]
    rfl
  rw [horder, Finset.sum_insert fun hk => hnew (List.mem_toFinset.mp hk), Finset.sum_congr rfl hother, hkeyColumn,
    hkeyColumn, hkeyPivot, hs.block_eq, h.rest_block_eq hs.rest hone i j]
  abel

theorem Invariant.eliminates (hs : Invariant A dim s) (hkey : key ∈ s.rest.colKeys)
    (hone : s.rest.block dim dim key key * P = 1) (h : Eliminates dim s key P s') : Invariant A dim s' := by
  have hnew := hs.not_mem_order hkey
  constructor
  · exact h.symmetric hs.rest hone
  · rw [h.order_eq]
    exact hs.nodup.append (List.nodup_singleton key) (List.disjoint_singleton.mpr hnew)
  · intro k
    rw [hs.mem_iff, h.mem_rest hs.rest, h.order_eq, List.mem_append, List.mem_singleton]
    by_cases hk : k = key
    · simp [hk, hkey]
    · simp [hk]
  · intro k hk hrest
    rw [h.order_eq, List.mem_append, List.mem_singleton] at hk
    rw [h.mem_rest hs.rest] at hrest
    exact hk.elim (fun hk => hs.disjoint k hk hrest.1) hrest.2
  · rw [h.dims_eq, h.order_eq, hs.dims_eq, List.map_append]
    rfl
  · exact h.lower_conforms
  · exact hs.before_eliminated h
  · exact h.diagInv_conforms
  · intro i j
    rw [h.diagInv_contains, hs.diagInv_contains, h.order_eq, List.mem_append, List.mem_singleton]
    grind
  · intro k hk
    rw [h.order_eq, List.mem_append, List.mem_singleton] at hk
    rcases hk with hk | rfl
    · rw [h.diagInv_other k fun e => hnew (e ▸ hk)]
      exact hs.isUnit k hk
    · rw [hs.diagInv_block_key hkey h]
      exact isUnit_iff_exists_inv.mpr ⟨_, mul_eq_one_comm.mp hone⟩
  · exact hs.block_eq_eliminated hkey hone h

end Step

end Run

end BlockElimination.Factor
