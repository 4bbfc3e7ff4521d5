import BlockElimination.Proofs.BlockMatrix.Blocks
import BlockElimination.Proofs.BlockVector

/-!
# Arithmetic of block matrices, place by place

Transposes, sums and products of conforming block matrices conform, have the expected pattern and are the transposes,
sums and products of the families of their blocks. The same holds of the action on block vectors.
-/
namespace BlockElimination.BlockMatrix

open Matrix

section Transpose
variable {F : Type} {A : BlockMatrix F} {m n : String → ℕ}

theorem contains_of_transpose {B : BlockMatrix F} (h : ∀ i j, B.get? j i = (A.get? i j).map LinearMap.transpose)
    (i j : String) : B.contains j i = A.contains i j := by
  rw [contains, contains, h, Option.isSome_map]

variable [Arith F]

theorem Consistent.yields_transposed (h : A.Consistent m n) : Yields A.transpose fun B =>
    B.Conforms n m ∧ ∀ i j, B.get? j i = (A.get? i j).map LinearMap.transpose := by
  refine ((Conforms.empty n m).yields_insertAll_fresh ?_ ?_ fun _ _ hc => nomatch contains_iff.mp hc).mono ?_
  · intro t ht
    obtain ⟨b, hb, rfl⟩ := List.mem_map.mp ht
    exact (h _ _ _ (mem_blocks.mp hb)).transpose
  · have := A.nodup_places.map Prod.swap_injective
    rw [List.map_map] at this ⊢
    exact this
  · rintro B ⟨hB, hget⟩
    refine ⟨hB, fun i j => Option.ext fun K => ?_⟩
    rw [hget, get?_empty, Option.map_eq_some_iff]
    simp only [reduceCtorEq, false_or, List.mem_map, Prod.exists, Prod.mk.injEq, mem_blocks]
    constructor
    · rintro ⟨r, c, a, ha, rfl, rfl, rfl⟩
      exact ⟨a, ha, rfl⟩
    · rintro ⟨a, ha, rfl⟩
      exact ⟨i, j, a, ha, rfl, rfl, rfl⟩

theorem Conforms.yields_transpose (h : A.Conforms m n) : Yields A.transpose fun B =>
    B.Conforms n m ∧ ∀ i j, B.get? j i = (A.get? i j).map LinearMap.transpose :=
  h.consistent.yields_transposed

theorem yields_identity {keys : List String} (hkeys : keys.Nodup) (dim : String → ℕ) :
    Yields (identity (keys.map fun k => (k, dim k)) : Except Fault (BlockMatrix F)) fun I =>
      I.Conforms dim dim ∧ ∀ i j K, I.get? i j = some K ↔ i = j ∧ j ∈ keys ∧ K = .identity (dim j) := by
  refine ((Conforms.empty dim dim).yields_insertAll_fresh ?_ ?_ fun _ _ hc => nomatch contains_iff.mp hc).mono ?_
  · simp only [List.map_map, List.mem_map]
    rintro _ ⟨k, -, rfl⟩
    exact ⟨rfl, rfl⟩
  · have := hkeys.map (f := fun k => (k, k)) fun _ _ e => congrArg Prod.fst e
    rw [List.map_map, List.map_map]
    exact this
  · rintro I ⟨hI, hget⟩
    refine ⟨hI, fun i j K => ?_⟩
    rw [hget, get?_empty]
    simp only [reduceCtorEq, false_or, List.map_map, List.mem_map, Function.comp_apply, Prod.mk.injEq]
    constructor
    · rintro ⟨k, hk, rfl, rfl, rfl⟩
      exact ⟨rfl, hk, rfl⟩
    · rintro ⟨rfl, hk, rfl⟩
      exact ⟨i, hk, rfl, rfl, rfl⟩

omit [Arith F] in
theorem map_fst_colHeads (h : A.Conforms m n) : A.colHeads.map Prod.fst = A.colKeys := by
  have hfirst : ∀ p ∈ A.columns.entries, ∃ q, p.2.first? = some q := fun p hp => by
    have hcolumn : A.column? p.1 = some p.2 := (Keyed.mem_entries_iff _ _ _).mp hp
    obtain ⟨i, hi⟩ := h.occupied p.1 (mem_colKeys.mpr ⟨p.2, hcolumn⟩)
    obtain ⟨K, hK⟩ := contains_iff.mp hi
    obtain ⟨column, hc, hget⟩ := get?_eq_some.mp hK
    obtain rfl := Option.some.inj (hcolumn.symm.trans hc)
    have hne : p.2.entries ≠ [] := List.ne_nil_of_mem ((Keyed.mem_entries_iff _ _ _).mpr hget)
    exact ⟨_, List.head?_eq_some_head hne⟩
  rw [colHeads, colKeys, Keyed.keys]
  generalize A.columns.entries = l at hfirst
  induction l with
  | nil => rfl
  | cons p l ih =>
    obtain ⟨q, hq⟩ := hfirst p List.mem_cons_self
    simp [hq, ih fun p hp => hfirst p (List.mem_cons_of_mem _ hp)]

theorem Conforms.yields_rightIdentity (h : A.Conforms m n) : Yields A.rightIdentity fun I =>
    I.Conforms n n ∧ ∀ i j K, I.get? i j = some K ↔ i = j ∧ j ∈ A.colKeys ∧ K = .identity (n j) := by
  have hdims : Yields (A.colHeads.mapM fun p => (p.1, ·) <$> p.2.colCount)
      (· = A.colHeads.map fun p => (p.1, n p.1)) := by
    refine Yields.mapM _ fun p hp => ?_
    obtain ⟨⟨col, column⟩, hmem, hp⟩ := List.mem_filterMap.mp hp
    obtain ⟨⟨row, a⟩, hfirst, rfl⟩ := Option.map_eq_some_iff.mp hp
    have ha := h.sized (get?_eq_some.mpr ⟨column, (Keyed.mem_entries_iff _ _ _).mp hmem, Keyed.get?_first hfirst⟩)
    exact Yields.map ((LinearMap.yields_colCount ha).mono fun _ hs => hs ▸ rfl)
  refine hdims.bind ?_
  rintro _ rfl
  have hmap : (A.colHeads.map fun p => (p.1, n p.1)) = A.colKeys.map fun k => (k, n k) := by
    rw [← map_fst_colHeads h, List.map_map]
    rfl
  rw [hmap]
  exact yields_identity (Keyed.nodup_keys _) n

end Transpose

section Dimensions
variable {F : Type} {A B : BlockMatrix F} {m l n : String → ℕ}

theorem mem_meetings {t : (String × String × String) × LinearMap F × LinearMap F} :
    t ∈ meetings A B ↔ A.get? t.1.1 t.1.2.1 = some t.2.1 ∧ B.get? t.1.2.1 t.1.2.2 = some t.2.2 := by
  obtain ⟨⟨i, k, j⟩, a, b⟩ := t
  simp only [meetings, List.mem_flatMap]
  constructor
  · rintro ⟨⟨k', j', b'⟩, hb, hmem⟩
    dsimp only at hmem
    split at hmem
    case h_1 column hcolumn =>
      obtain ⟨⟨i', a'⟩, ha, e⟩ := List.mem_map.mp hmem
      cases e
      exact ⟨get?_eq_some.mpr ⟨column, hcolumn, (Keyed.mem_entries_iff _ _ _).mp ha⟩, mem_blocks.mp hb⟩
    case h_2 => cases hmem
  · rintro ⟨ha, hb⟩
    obtain ⟨column, hcolumn, ha⟩ := get?_eq_some.mp ha
    refine ⟨(k, j, b), mem_blocks.mpr hb, ?_⟩
    dsimp only at hcolumn ⊢
    rw [hcolumn]
    exact List.mem_map.mpr ⟨(i, a), (Keyed.mem_entries_iff _ _ _).mpr ha, rfl⟩

variable [Arith F]

theorem Consistent.yields_addScaled (hA : A.Consistent m n) (hB : B.Consistent m n) (alpha : F) :
    Yields (A.addScaled alpha B) (·.Consistent m n) := by
  refine hA.yields_insertAll fun t ht => ?_
  obtain ⟨⟨i, j, K⟩, hK, rfl⟩ := List.mem_map.mp ht
  exact (hB i j K (mem_blocks.mp hK)).scale alpha

theorem Consistent.yields_transpose (hA : A.Consistent m n) : Yields A.transpose (·.Consistent n m) := by
  refine (Consistent.empty n m).yields_insertAll fun t ht => ?_
  obtain ⟨⟨i, j, K⟩, hK, rfl⟩ := List.mem_map.mp ht
  exact (hA i j K (mem_blocks.mp hK)).transpose

theorem Consistent.yields_mul {ε : Type} {q : ε → Prop} (hA : A.Consistent m l) (hB : B.Consistent l n) :
    (A.mul B).Yields (·.Consistent m n) q := by
  refine Outcome.Yields.foldlM (fun _ (C : BlockMatrix F) => C.Consistent m n) (.empty m n) ?_
  rintro - ⟨⟨i, k, j⟩, a, b⟩ ht C hC
  obtain ⟨ha, hb⟩ := mem_meetings.mp ht
  refine Outcome.Yields.report_bind ?_
  refine Outcome.Yields.lift_bind ((hA i k a ha).yields_mul (hB k j b hb)) fun P hP => ?_
  exact Outcome.Yields.lift (hC.yields_insertOrAdd hP)

end Dimensions

section Sums
variable {F : Type} [CommRing F] [DecidableEq F] {A B : BlockMatrix F} {m l n : String → ℕ}

theorem block_of_transpose (h : ∀ i j, B.get? j i = (A.get? i j).map LinearMap.transpose) (i j : String) :
    B.block n m j i = (A.block m n i j)ᵀ := by
  rw [block, block, h]
  cases A.get? i j <;> simp

/-- `C` is `A + α B`. A Kronecker block of `C` where `A` has a block is that of `A`, unchanged. -/
structure SumOf (m n : String → ℕ) (alpha : F) (A B C : BlockMatrix F) : Prop where
  conforms : C.Conforms m n
  contains_iff : ∀ i j, C.contains i j ↔ A.contains i j ∨ B.contains i j
  block_eq : ∀ i j, C.block m n i j = A.block m n i j + alpha • B.block m n i j
  kept : ∀ {i j K}, C.get? i j = some K → K.kind = .kron → A.contains i j → A.get? i j = some K ∧ ¬B.contains i j

theorem Conforms.yields_addScaled (hA : A.Conforms m n) (hB : B.Conforms m n) (alpha : F) :
    Yields (A.addScaled alpha B) (SumOf m n alpha A B) := by
  have hmem : ∀ i j, (∃ t ∈ B.blocks.map fun t => (t.1, t.2.1, t.2.2.scale alpha), (t.1, t.2.1) = (i, j)) ↔
      B.contains i j := by
    intro i j
    simp only [List.mem_map, BlockMatrix.contains_iff, ← mem_blocks]
    constructor
    · rintro ⟨_, ⟨⟨r, c, b⟩, hb, rfl⟩, e⟩
      cases e
      exact ⟨b, hb⟩
    · rintro ⟨b, hb⟩
      exact ⟨_, ⟨_, hb, rfl⟩, rfl⟩
  refine (yields_insertAll hA fun t ht => ?_).mono fun C hC => ⟨hC.conforms, fun i j => ?_, fun i j => ?_, ?_⟩
  · obtain ⟨b, hb, rfl⟩ := List.mem_map.mp ht
    exact (hB.sized (mem_blocks.mp hb)).scale alpha
  · rw [hC.contains_iff, hmem]
  · rw [hC.block_eq, List.map_map]
    simp only [Function.comp_def, LinearMap.matrix_scale]
    rw [sum_block (g := fun M => alpha • M) (smul_zero alpha)]
  · intro i j K hK hkron hAc
    obtain ⟨hget, hplace⟩ := hC.kept hK hkron hAc
    refine ⟨hget, fun hBc => ?_⟩
    obtain ⟨t, ht, e⟩ := (hmem i j).mpr hBc
    exact hplace t ht e

theorem sum_column (A : BlockMatrix F) (t : String × String × LinearMap F) (i j : String) :
    ((match A.column? t.1 with
      | some column => column.entries.map fun p : String × LinearMap F => ((p.1, t.1, t.2.1), p.2, t.2.2)
      | none => []).map fun u : (String × String × String) × LinearMap F × LinearMap F =>
        if (u.1.1, u.1.2.2) = (i, j) then
          u.2.1.matrix (m i) (l u.1.2.1) * u.2.2.matrix (l u.1.2.1) (n j) else 0).sum =
      if t.2.1 = j then A.block m l i t.1 * t.2.2.matrix (l t.1) (n j) else 0 := by
  cases hcolumn : A.column? t.1 with
  | none => simp [block, get?, hcolumn]
  | some column =>
    rw [List.map_map]
    by_cases hj : t.2.1 = j
    · have hsum := Keyed.sum_entries (fun K => K.matrix (m i) (l t.1) * t.2.2.matrix (l t.1) (n j)) i column
      simp only [Function.comp_def, hj, Prod.mk.injEq, and_true, if_true, hsum, block, get?, hcolumn, Option.bind_some]
      cases column.get? i <;> simp
    · simp [Function.comp_def, hj]

theorem sum_meetings {s : Finset String} (hs : ∀ k ∈ A.colKeys, k ∈ s) (i j : String) :
    ((meetings A B).map fun t => if (t.1.1, t.1.2.2) = (i, j) then
        t.2.1.matrix (m i) (l t.1.2.1) * t.2.2.matrix (l t.1.2.1) (n j) else 0).sum =
      ∑ k ∈ s, A.block m l i k * B.block l n k j := by
  have hsplit : ∀ t : String × String × LinearMap F,
      (if t.2.1 = j then A.block m l i t.1 * t.2.2.matrix (l t.1) (n j) else 0) =
        ∑ k ∈ s, if (t.1, t.2.1) = (k, j) then A.block m l i k * t.2.2.matrix (l k) (n j) else 0 := fun t => by
    by_cases hj : t.2.1 = j
    · by_cases hk : t.1 ∈ s
      · rw [if_pos hj, Finset.sum_eq_single_of_mem t.1 hk, if_pos (by rw [hj])]
        exact fun k _ hne => if_neg fun e => hne (Prod.mk.inj e).1.symm
      · have hnot : ¬A.contains i t.1 := fun hc => hk (hs _ (mem_colKeys_of_contains hc))
        rw [if_pos hj, block_of_not_contains hnot, Matrix.zero_mul, Finset.sum_eq_zero]
        exact fun k hks => if_neg fun e => hk (by rwa [(Prod.mk.inj e).1])
    · rw [if_neg hj, Finset.sum_eq_zero]
      exact fun k _ => if_neg fun e => hj (Prod.mk.inj e).2
  rw [meetings, sum_map_flatMap]
  refine (congrArg List.sum (List.map_congr_left fun t _ => (sum_column A t i j).trans (hsplit t))).trans ?_
  rw [sum_map_finset_sum]
  exact Finset.sum_congr rfl fun k _ => sum_block (g := fun M => A.block m l i k * M) (Matrix.mul_zero _)

/-- `C` is `A B`, where the sum runs over the names of `s`. -/
structure ProductOf (m l n : String → ℕ) (s : Finset String) (A B C : BlockMatrix F) : Prop where
  conforms : C.Conforms m n
  contains_iff : ∀ i j, C.contains i j ↔ ∃ k, A.contains i k ∧ B.contains k j
  block_eq : ∀ i j, C.block m n i j = ∑ k ∈ s, A.block m l i k * B.block l n k j

theorem Consistent.yields_productOf {ε : Type} {q : ε → Prop} (hA : A.Consistent m l) (hB : B.Consistent l n)
    {s : Finset String} (hs : ∀ k ∈ A.colKeys, k ∈ s) : (A.mul B).Yields (ProductOf m l n s A B) q := by
  refine Outcome.Yields.mono (Outcome.Yields.foldlM (Gathers m n (fun t => (t.1.1, t.1.2.2))
    (fun t i j => t.2.1.matrix (m i) (l t.1.2.1) * t.2.2.matrix (l t.1.2.1) (n j)) BlockMatrix.empty)
    (.nil (.empty m n)) ?_)
    (fun C hC => ⟨hC.conforms, fun i j => ?_, fun i j => ?_⟩) fun _ h => h
  · intro done t ht C hC
    obtain ⟨ha, hb⟩ := mem_meetings.mp ht
    refine Outcome.Yields.report_bind ?_
    refine Outcome.Yields.lift_bind (LinearMap.yields_mul (hA _ _ _ ha) (hB _ _ _ hb)) fun P hP => ?_
    exact Outcome.Yields.lift (hC.yields_insertOrAdd rfl hP.1 hP.2)
  · rw [hC.contains_iff]
    simp only [BlockMatrix.contains_iff, get?_empty, reduceCtorEq, exists_false, false_or, mem_meetings]
    constructor
    · rintro ⟨⟨⟨r, k, c⟩, a, b⟩, ⟨ha, hb⟩, e⟩
      cases e
      exact ⟨k, ⟨a, ha⟩, b, hb⟩
    · rintro ⟨k, ⟨a, ha⟩, b, hb⟩
      exact ⟨((i, k, j), a, b), ⟨ha, hb⟩, rfl⟩
  · rw [hC.block_eq, sum_meetings hs]
    exact zero_add _

theorem Conforms.yields_mul {ε : Type} {q : ε → Prop} (hA : A.Conforms m l) (hB : B.Conforms l n) {s : Finset String}
    (hs : ∀ k ∈ A.colKeys, k ∈ s) : (A.mul B).Yields (ProductOf m l n s A B) q :=
  hA.consistent.yields_productOf hB.consistent hs

variable {ε : Type} {q : ε → Prop}

theorem Consistent.yields_columnAction (hA : A.Consistent m n) {key : String} {column : Keyed (LinearMap F)}
    (hcolumn : A.column? key = some column) {s : Array F} (hs : s.size = n key) {y : BlockVector F}
    (hy : y.Conforms m) :
    (column.entries.foldlM (fun y (row, a) => do
      let product ← a.apply s
      y.insertOrAdd row product) y : Outcome ε (BlockVector F)).Yields
      (fun z => z.Conforms m ∧ (∀ i, z.contains i ↔ y.contains i ∨ A.contains i key) ∧
        ∀ i, z.part m i = y.part m i + A.block m n i key *ᵥ coords (n key) s) q := by
  refine Outcome.Yields.mono (Outcome.Yields.foldlM (fun done z => z.Conforms m ∧
    (∀ i, z.contains i ↔ y.contains i ∨ ∃ p ∈ done, p.1 = i) ∧ ∀ i, z.part m i = y.part m i +
      (done.map fun p => if p.1 = i then p.2.matrix (m i) (n key) *ᵥ coords (n key) s else 0).sum)
    ⟨hy, by simp, by simp⟩ ?_) (fun z hz => ⟨hz.1, fun i => ?_, fun i => ?_⟩) fun _ h => h
  · rintro done ⟨row, a⟩ hmem z ⟨hz, hcontains, hpart⟩
    have ha := hA _ _ _ (get?_eq_some.mpr ⟨column, hcolumn, (Keyed.mem_entries_iff _ _ _).mp hmem⟩)
    refine Outcome.Yields.lift_bind (LinearMap.yields_apply ha hs) fun w hw => Outcome.Yields.lift ?_
    refine (hz.yields_insertOrAdd hw.1).mono fun z' hz' => ⟨hz'.conforms, fun i => ?_, fun i => ?_⟩
    · rw [hz'.contains_iff, hcontains]
      simp only [List.mem_append, List.mem_singleton, or_and_right, exists_or, exists_eq_left, or_assoc, eq_comm]
    · rw [hz'.part_eq, hpart, List.map_append, List.sum_append, List.map_singleton, List.sum_singleton, add_assoc]
      congr 2
      split
      case isTrue hi =>
        subst hi
        exact hw.2
      case isFalse => rfl
  · rw [hz.2.1]
    simp only [BlockMatrix.contains_iff, get?_eq_some, hcolumn, Option.some.injEq, exists_eq_left', Prod.exists,
      Keyed.mem_entries_iff, exists_and_right, exists_eq_right]
  · rw [hz.2.2, Keyed.sum_entries (fun K => K.matrix (m i) (n key) *ᵥ coords (n key) s) i column, block, get?, hcolumn,
      Option.bind_some]
    cases column.get? i <;> simp

/-- `y` is `A x`. -/
structure ActionOf (m n : String → ℕ) (A : BlockMatrix F) (x y : BlockVector F) : Prop where
  conforms : y.Conforms m
  contains_iff : ∀ i, y.contains i ↔ ∃ k, x.contains k ∧ A.contains i k
  part_eq : ∀ i, y.part m i = ∑ k ∈ x.keys.toFinset, A.block m n i k *ᵥ x.part n k

theorem Consistent.yields_actionOf (hA : A.Consistent m n) {x : BlockVector F} (hx : x.Conforms n) :
    (A.apply x : Outcome ε (BlockVector F)).Yields (ActionOf m n A x) q := by
  refine Outcome.Yields.report_bind ?_
  refine Outcome.Yields.mono (Outcome.Yields.foldlM (fun done y => y.Conforms m ∧
    (∀ i, y.contains i ↔ ∃ p ∈ done, A.contains i p.1) ∧
      ∀ i, y.part m i = (done.map fun p => A.block m n i p.1 *ᵥ coords (n p.1) p.2).sum)
    ⟨.empty m, ?_, fun i => ?_⟩ ?_) (fun y hy => ⟨hy.1, fun i => ?_, fun i => ?_⟩) fun _ h => h
  · intro i
    simp only [List.not_mem_nil, false_and, exists_false, iff_false]
    exact fun h => nomatch BlockVector.contains_iff.mp h
  · rfl
  · rintro done ⟨key, s⟩ hmem y ⟨hy, hcontains, hpart⟩
    have hs : s.size = n key := hx key s (BlockVector.mem_entries.mp hmem)
    dsimp only
    cases hcolumn : A.column? key with
    | some column =>
      refine (hA.yields_columnAction hcolumn hs hy).mono (fun z hz => ⟨hz.1, fun i => ?_, fun i => ?_⟩) fun _ h => h
      · rw [hz.2.1, hcontains]
        simp only [List.mem_append, List.mem_singleton, or_and_right, exists_or, exists_eq_left]
      · rw [hz.2.2, hpart, List.map_append, List.sum_append, List.map_singleton, List.sum_singleton]
    | none =>
      have hnone : ∀ i, ¬A.contains i key := fun i h => by
        obtain ⟨column, hc, -⟩ := get?_eq_some.mp (BlockMatrix.contains_iff.mp h).choose_spec
        rw [hcolumn] at hc
        cases hc
      refine Outcome.Yields.pure_iff.mpr ⟨hy, fun i => ?_, fun i => ?_⟩
      · rw [hcontains]
        simp only [List.mem_append, List.mem_singleton, or_and_right, exists_or, exists_eq_left, hnone i, or_false,
          Bool.false_eq_true]
      · rw [hpart, List.map_append, List.sum_append, List.map_singleton, List.sum_singleton,
          block_of_not_contains (hnone i), zero_mulVec, add_zero]
  · rw [hy.2.1]
    simp only [Prod.exists, BlockVector.mem_entries, BlockVector.contains_iff]
    constructor
    · rintro ⟨k, s, hs, h⟩
      exact ⟨k, ⟨s, hs⟩, h⟩
    · rintro ⟨k, ⟨s, hs⟩, h⟩
      exact ⟨k, s, hs, h⟩
  · rw [hy.2.2, List.sum_toFinset _ x.nodup_keys, BlockVector.keys, Keyed.keys, List.map_map]
    refine congrArg List.sum (List.map_congr_left fun p hp => ?_)
    rw [Function.comp_apply, BlockVector.part_of_get? (BlockVector.mem_entries.mp hp)]

theorem Conforms.yields_apply (hA : A.Conforms m n) {x : BlockVector F} (hx : x.Conforms n) :
    (A.apply x : Outcome ε (BlockVector F)).Yields (ActionOf m n A x) q :=
  hA.consistent.yields_actionOf hx

/-- A matrix only acts on a vector whose segments have the dimensions of the columns they meet. -/
theorem Conforms.conforms_of_apply (hA : A.Conforms m n) {x y : BlockVector F} (hx : ∀ k ∈ x.keys, k ∈ A.colKeys)
    (h : (A.apply x : Outcome ε (BlockVector F)).result = .ok y) : x.Conforms n := by
  intro k s hs
  obtain ⟨i, hi⟩ := hA.occupied k (hx k (BlockVector.mem_keys.mpr (BlockVector.contains_iff.mpr ⟨s, hs⟩)))
  obtain ⟨K, hK⟩ := contains_iff.mp hi
  obtain ⟨column, hcolumn, hrow⟩ := get?_eq_some.mp hK
  obtain ⟨-, -, h⟩ := Outcome.exists_of_bind_eq_ok h
  obtain ⟨_, _, h⟩ := Outcome.exists_of_foldlM_result_eq_ok h (k, s) (BlockVector.mem_entries.mpr hs)
  simp only [hcolumn] at h
  obtain ⟨_, _, h⟩ := Outcome.exists_of_foldlM_result_eq_ok h (i, K) ((Keyed.mem_entries_iff _ _ _).mpr hrow)
  obtain ⟨z, h, -⟩ := Outcome.exists_of_bind_eq_ok h
  cases hz : K.apply s with
  | error e =>
    simp only [hz] at h
    cases h
  | ok z => exact LinearMap.size_of_apply_eq_ok (hA.sized hK) hz

end Sums

end BlockElimination.BlockMatrix
