import BlockElimination.Proofs.Factor.Factorization

/-!
# Solutions

The two sweeps and the diagonal blocks between them solve `A x = b`, and the factors leave no other solution.
-/
namespace BlockElimination.Factor

open Matrix BlockMatrix

/-- The segments of `b` at the keys have the dimensions of the keys. -/
def Fitting {F : Type} (keys : List String) (dim : String → ℕ) (b : BlockVector F) : Prop :=
  ∀ k ∈ keys, ∀ s, b.get? k = some s → s.size = dim k

theorem Fitting.size_getD {F : Type} [Arith F] {keys : List String} {dim : String → ℕ} {b : BlockVector F}
    (h : Fitting keys dim b) {k : String} (hk : k ∈ keys) :
    ((b.get? k).getD (Kernel.zeros (dim k))).size = dim k := by
  cases hs : b.get? k with
  | some s => exact h k hk s hs
  | none => exact Array.size_replicate

section Steps
variable {F : Type} [CommRing F] [DecidableEq F] {dim : String → ℕ} {f : Factor F} {b : BlockVector F}

theorem Fitting.getD_eq {keys : List String} (h : Fitting keys dim b) {k : String} (hk : k ∈ keys) :
    (b.get? k).getD (Kernel.zeros (dim k)) = Array.ofFn (b.part dim k) := by
  cases hs : b.get? k with
  | some s => rw [Option.getD_some, BlockVector.part_of_get? hs, ofFn_coords (h k hk s hs)]
  | none =>
    have hpart : b.part dim k = coords (dim k) (Kernel.zeros (dim k)) := by
      rw [BlockVector.part, hs]
      funext i
      simp
    rw [Option.getD_none, hpart, ofFn_coords (by simp [Kernel.zeros])]

variable (hdims : f.dims = f.order.map dim)

include hdims in
omit [CommRing F] [DecidableEq F] in
theorem zip_dims : f.order.zip f.dims = f.order.map fun k => (k, dim k) := by
  rw [hdims, List.map_prod_left_eq_zip]

include hdims in
omit [CommRing F] [DecidableEq F] in
theorem yields_checkRightSide (hb : Fitting f.order dim b) : Yields (checkRightSide f b) fun _ => True := by
  rw [checkRightSide, zip_dims hdims]
  unfold Fitting at hb
  generalize f.order = order at hb
  induction order with
  | nil => trivial
  | cons k order ih =>
    rw [List.map_cons, List.forM_eq_forM, List.forM_cons]
    refine Yields.bind (p := fun _ => True) ?_ fun _ _ => ih fun k hk => hb k (List.mem_cons_of_mem _ hk)
    dsimp only
    split
    case h_1 s hs => simp [hb k List.mem_cons_self s hs]
    case h_2 => exact yields_storable _

include hdims in
theorem rightSide_eq_pack (hb : Fitting f.order dim b) : rightSide f b = pack f.order (b.part dim) := by
  rw [rightSide, zip_dims hdims, List.map_map, pack]
  refine congrArg List.toArray (List.map_congr_left fun k hk => ?_)
  simp only [Function.comp_apply, hb.getD_eq hk]

theorem yields_scaleByDiagonal (hD : f.diagInv.Conforms dim dim) (hcontains : ∀ k ∈ f.order, f.diagInv.contains k k)
    (x : ∀ k, Fin (dim k) → F) : Yields (scaleByDiagonal f (pack f.order x))
      (· = pack f.order fun k => f.diagInv.block dim dim k k *ᵥ x k) := by
  rw [scaleByDiagonal, pack, List.mapM_toArray]
  refine Yields.map ((Yields.mapM (fun p => (p.1, Array.ofFn (f.diagInv.block dim dim p.1 p.1 *ᵥ x p.1)))
    fun p hp => ?_).mono fun ys hys => ?_)
  · obtain ⟨k, hk, rfl⟩ := List.mem_map.mp hp
    obtain ⟨K, hK⟩ := contains_iff.mp (hcontains k hk)
    simp only [hK]
    refine Yields.map ((LinearMap.yields_apply (hD.sized hK) (by simp)).mono fun z hz => ?_)
    rw [block_of_get? hK, ← ofFn_coords hz.1, hz.2, coords_ofFn]
  · rw [hys, List.map_map, pack]
    rfl

theorem yields_collect {order : List String} (hnodup : order.Nodup) (x : ∀ k, Fin (dim k) → F) :
    Yields (BlockVector.empty.insertAll (pack order x).toList) fun v =>
      v.Conforms dim ∧ (∀ k, v.contains k ↔ k ∈ order) ∧ ∀ k ∈ order, v.part dim k = x k := by
  have hkeys : ((pack order x).toList.map Prod.fst).Nodup := by
    rw [pack, List.map_map]
    simpa [Function.comp_def] using hnodup
  obtain ⟨v, hinsert, hv⟩ :=
    BlockVector.exists_insertAll_fresh (v := BlockVector.empty) hkeys fun p _ hc => Bool.false_ne_true hc
  rw [hinsert, Yields.ok_iff]
  have hget : ∀ k s, v.get? k = some s ↔ k ∈ order ∧ s = Array.ofFn (x k) := fun k s => by
    rw [hv, BlockVector.get?_empty, pack]
    simp only [reduceCtorEq, false_or, List.mem_map, Prod.mk.injEq]
    constructor
    · rintro ⟨k, hk, rfl, rfl⟩
      exact ⟨hk, rfl⟩
    · rintro ⟨hk, rfl⟩
      exact ⟨k, hk, rfl, rfl⟩
  refine ⟨fun k s hs => ?_, fun k => ?_, fun k hk => ?_⟩
  · rw [((hget k s).mp hs).2, Array.size_ofFn]
  · simp [BlockVector.contains_iff, hget]
  · rw [BlockVector.part_of_get? ((hget k _).mpr ⟨hk, rfl⟩), coords_ofFn]

end Steps

section Solution
variable {F : Type} [Field F] [LinearOrder F] {A : BlockMatrix F} {dim : String → ℕ} {f : Factor F}
  {b x : BlockVector F}

theorem sum_unitLower_mulVec {L : BlockMatrix F} {s : Finset String} {i : String} (hi : i ∈ s)
    (x : ∀ k, Fin (dim k) → F) :
    ∑ k ∈ s, unitLower dim L i k *ᵥ x k = x i + ∑ k ∈ s, L.block dim dim i k *ᵥ x k := by
  simp only [unitLower, add_mulVec, Finset.sum_add_distrib, sum_unit_mulVec hi]

theorem sum_unitLower_transpose_mulVec {L : BlockMatrix F} {s : Finset String} {i : String} (hi : i ∈ s)
    (x : ∀ k, Fin (dim k) → F) :
    ∑ k ∈ s, (unitLower dim L k i)ᵀ *ᵥ x k = x i + ∑ k ∈ s, (L.block dim dim k i)ᵀ *ᵥ x k := by
  simp only [unitLower, transpose_add, unit_transpose, add_mulVec, Finset.sum_add_distrib, sum_unit_mulVec hi]

/-- `x` has the keys of `A`, and `A x` is `b` at these keys. -/
structure Solves (A : BlockMatrix F) (dim : String → ℕ) (b x : BlockVector F) : Prop where
  keys_eq : x.keys = A.colKeys
  conforms : x.Conforms dim
  part_eq : ∀ i ∈ A.colKeys, ∑ k ∈ A.names, A.block dim dim i k *ᵥ x.part dim k = b.part dim i

theorem Factors.order_toFinset (hf : Factors A dim f) : f.order.toFinset = A.names := by
  ext k
  rw [List.mem_toFinset, mem_names, hf.mem_iff]

theorem Factors.mulVec_eq (hf : Factors A dim f) (i : String) (x : ∀ k, Fin (dim k) → F) :
    ∑ j ∈ A.names, A.block dim dim i j *ᵥ x j = ∑ k ∈ A.names, unitLower dim f.lower i k *ᵥ
      (pivotBlock dim f.diagInv k *ᵥ ∑ j ∈ A.names, (unitLower dim f.lower j k)ᵀ *ᵥ x j) := by
  have hterm : ∀ j, A.block dim dim i j *ᵥ x j = ∑ k ∈ A.names, unitLower dim f.lower i k *ᵥ
      (pivotBlock dim f.diagInv k *ᵥ ((unitLower dim f.lower j k)ᵀ *ᵥ x j)) := fun j => by
    rw [hf.block_eq, hf.order_toFinset, sum_mulVec]
    exact Finset.sum_congr rfl fun k _ => by rw [mulVec_mulVec, mulVec_mulVec]
  simp only [hterm, mulVec_sum]
  exact Finset.sum_comm

theorem Factors.pivotBlock_mul (hf : Factors A dim f) {k : String} (hk : k ∈ f.order) :
    pivotBlock dim f.diagInv k * f.diagInv.block dim dim k k = 1 :=
  nonsing_inv_mul _ ((isUnit_iff_isUnit_det _).mp (hf.isUnit k hk))

/-- Solving with the factors yields a solution, for every right-hand side whose segments fit. -/
theorem Factors.yields_solve (hf : Factors A dim f) (hb : Fitting A.colKeys dim b) :
    Yields (f.solve b) (Solves A dim b) := by
  have hb' : Fitting f.order dim b := fun k hk => hb k ((hf.mem_iff k).mp hk)
  refine (yields_checkRightSide hf.dims_eq hb').bind fun _ _ => ?_
  simp only [rightSide_eq_pack hf.dims_eq hb', size_pack]
  refine (yields_forwardSweep hf.lower hf.nodup hf.before _).bind ?_
  rintro _ ⟨y, rfl, hy⟩
  refine (yields_scaleByDiagonal hf.diagInv (fun k hk => (hf.diagInv_contains k k).mpr ⟨rfl, hk⟩) y).bind ?_
  rintro _ rfl
  refine (yields_backwardSweep hf.upper hf.nodup hf.before hf.upper_eq _).bind ?_
  rintro _ ⟨z, rfl, hz⟩
  refine (yields_collect hf.nodup z).mono fun v ⟨hv, hkeys, hpart⟩ => ⟨?_, hv, fun i hi => ?_⟩
  · exact Keyed.keys_eq_keys fun k => (hkeys k).trans ((hf.mem_iff k).trans Keyed.mem_keys)
  · rw [hf.order_toFinset] at hy hz
    have hmem : ∀ {k}, k ∈ A.names → k ∈ f.order := fun hk => (hf.mem_iff _).mpr (mem_names.mp hk)
    have hback : ∀ k ∈ A.names, ∑ j ∈ A.names, (unitLower dim f.lower j k)ᵀ *ᵥ v.part dim j =
        f.diagInv.block dim dim k k *ᵥ y k := fun k hk => by
      rw [sum_unitLower_transpose_mulVec hk, hpart k (hmem hk), hz k (hmem hk)]
      congr 1
      exact Finset.sum_congr rfl fun j hj => by rw [hpart j (hmem hj)]
    calc ∑ k ∈ A.names, A.block dim dim i k *ᵥ v.part dim k
        = ∑ k ∈ A.names, unitLower dim f.lower i k *ᵥ y k := by
          rw [hf.mulVec_eq]
          refine Finset.sum_congr rfl fun k hk => ?_
          rw [hback k hk, mulVec_mulVec _ (pivotBlock dim f.diagInv k), hf.pivotBlock_mul (hmem hk), one_mulVec]
      _ = b.part dim i := by
          rw [sum_unitLower_mulVec (mem_names.mpr hi), hy i ((hf.mem_iff i).mpr hi)]

/-- A family that a strictly triangular one takes to its negative is zero, by induction on the rank. -/
theorem eq_zero_of_triangular (rank : String → ℕ) {T : ∀ i k, Matrix (Fin (dim i)) (Fin (dim k)) F}
    {s : Finset String} (hT : ∀ i ∈ s, ∀ k ∈ s, T i k ≠ 0 → rank k < rank i)
    {x : ∀ k, Fin (dim k) → F} (hx : ∀ i ∈ s, x i + ∑ k ∈ s, T i k *ᵥ x k = 0) : ∀ i ∈ s, x i = 0 := by
  intro i
  induction hn : rank i using Nat.strong_induction_on generalizing i with
  | _ n ih =>
    intro hi
    have hsum : ∑ k ∈ s, T i k *ᵥ x k = 0 := Finset.sum_eq_zero fun k hk => by
      by_cases hzero : T i k = 0
      · rw [hzero, zero_mulVec]
      · rw [ih (rank k) (hn ▸ hT i hi k hk hzero) k rfl hk, mulVec_zero]
    simpa [hsum] using hx i hi

theorem Factors.idxOf_lt_idxOf (hf : Factors A dim f) {i j : String} (h : f.lower.block dim dim i j ≠ 0) :
    f.order.idxOf j < f.order.idxOf i := by
  obtain ⟨p, q, hlt, hp, hq⟩ := hf.before (contains_of_block_ne_zero h)
  obtain ⟨hp, rfl⟩ := List.getElem?_eq_some_iff.mp hp
  obtain ⟨hq, rfl⟩ := List.getElem?_eq_some_iff.mp hq
  rwa [hf.nodup.idxOf_getElem, hf.nodup.idxOf_getElem]

/-- No vector but zero is taken to zero. -/
theorem Factors.eq_zero (hf : Factors A dim f) {x : ∀ k, Fin (dim k) → F}
    (hx : ∀ i ∈ A.names, ∑ k ∈ A.names, A.block dim dim i k *ᵥ x k = 0) : ∀ i ∈ A.names, x i = 0 := by
  have hpivot : ∀ k ∈ A.names,
      pivotBlock dim f.diagInv k *ᵥ ∑ j ∈ A.names, (unitLower dim f.lower j k)ᵀ *ᵥ x j = 0 := by
    refine eq_zero_of_triangular f.order.idxOf (T := f.lower.block dim dim) (fun i _ k _ => hf.idxOf_lt_idxOf)
      fun i hi => ?_
    rw [← hx i hi, hf.mulVec_eq, sum_unitLower_mulVec hi]
  refine eq_zero_of_triangular (fun k => f.order.length - f.order.idxOf k)
    (T := fun i k => (f.lower.block dim dim k i)ᵀ) (fun i hi k _ hne => ?_) fun i hi => ?_
  · have hlt := hf.idxOf_lt_idxOf (i := k) (j := i) fun e => hne (by rw [e, transpose_zero])
    have hlen := List.idxOf_lt_length_iff.mpr ((hf.mem_iff i).mpr (mem_names.mp hi))
    omega
  · have hunit := (isUnit_iff_isUnit_det _).mp (hf.isUnit i ((hf.mem_iff i).mpr (mem_names.mp hi)))
    have hzero := congrArg (f.diagInv.block dim dim i i *ᵥ ·) (hpivot i hi)
    simpa [pivotBlock, mul_nonsing_inv _ hunit, sum_unitLower_transpose_mulVec hi] using hzero

theorem Factors.solves_unique (hf : Factors A dim f) {y : BlockVector F} (hx : Solves A dim b x)
    (hy : Solves A dim b y) : x = y := by
  refine BlockVector.eq_of_part hx.conforms hy.conforms (hx.keys_eq.trans hy.keys_eq.symm) fun k hk => ?_
  refine sub_eq_zero.mp (hf.eq_zero (x := fun k => x.part dim k - y.part dim k) (fun i hi => ?_) k ?_)
  · simp only [mulVec_sub, Finset.sum_sub_distrib]
    rw [hx.part_eq i (mem_names.mp hi), hy.part_eq i (mem_names.mp hi), sub_self]
  · exact mem_names.mpr (hx.keys_eq ▸ hk)

/-- The segments of `y` at the keys are those of `b`, with zeros for one that is missing. -/
def Matches (keys : List String) (dim : String → ℕ) (b y : BlockVector F) : Prop :=
  ∀ k ∈ keys, y.get? k = some ((b.get? k).getD (Kernel.zeros (dim k)))

variable {ε : Type}

theorem Solves.yields_apply {q : ε → Prop} (hA : A.BlockSymmetric dim) (hb : Fitting A.colKeys dim b)
    (hx : Solves A dim b x) : (A.apply x : Outcome ε (BlockVector F)).Yields (Matches A.colKeys dim b) q := by
  refine (hA.conforms.yields_apply hx.conforms).mono (fun y hy k hk => ?_) fun _ h => h
  have hcontains : y.contains k := by
    obtain ⟨i, hi⟩ := hA.conforms.occupied k hk
    refine (hy.contains_iff k).mpr ⟨i, ?_, hA.contains_comm hi⟩
    rw [← BlockVector.mem_keys, hx.keys_eq]
    exact hA.row_mem hi
  have hpart : y.part dim k = b.part dim k := by
    rw [hy.part_eq, hx.keys_eq]
    exact hx.part_eq k hk
  rw [hy.conforms.get?_eq hcontains, hpart, hb.getD_eq hk]

theorem solves_of_apply (hA : A.BlockSymmetric dim) (hb : Fitting A.colKeys dim b) (hkeys : x.keys = A.colKeys)
    {y : BlockVector F} (h : (A.apply x : Outcome ε (BlockVector F)).result = .ok y)
    (hy : Matches A.colKeys dim b y) : Solves A dim b x := by
  have hx : x.Conforms dim := hA.conforms.conforms_of_apply (fun k hk => hkeys ▸ hk) h
  have haction := (hA.conforms.yields_apply hx (q := fun _ => False)).of_result_eq_ok h
  refine ⟨hkeys, hx, fun i hi => ?_⟩
  have hpart : y.part dim i = b.part dim i := by
    rw [BlockVector.part_of_get? (hy i hi), hb.getD_eq hi, coords_ofFn]
  rw [← hpart, haction.part_eq, hkeys]
  rfl

end Solution

end BlockElimination.Factor
