import BlockElimination.Proofs.BlockMatrix.Inverse

/-!
# Block-diagonal matrices

A block-diagonal matrix is a family of maps, one for each name, as soon as every column has a block. What is computed from
its blocks, its rows or its columns is then computed from that one list.
-/
namespace BlockElimination.BlockMatrix

section Families
variable {F : Type} {A B : BlockMatrix F} {D : Keyed (LinearMap F)} {i j k : String}

/-- The block-diagonal matrix of a family of maps. -/
def diagonalOf (D : Keyed (LinearMap F)) : BlockMatrix F where
  columns := ⟨D.entries.map fun p => (p.1, ⟨[p], List.pairwise_singleton _ _⟩), List.pairwise_map.mpr D.sorted⟩

@[simp] theorem colKeys_diagonalOf (D : Keyed (LinearMap F)) : (diagonalOf D).colKeys = D.keys := by
  simp [colKeys, diagonalOf, Keyed.keys]

@[simp] theorem blocks_diagonalOf (D : Keyed (LinearMap F)) :
    (diagonalOf D).blocks = D.entries.map fun p => (p.1, p.1, p.2) := by
  rw [blocks, diagonalOf, List.flatMap_map, List.map_eq_flatMap]
  rfl

theorem column?_diagonalOf (D : Keyed (LinearMap F)) (k : String) :
    (diagonalOf D).column? k = (D.get? k).map fun a => ⟨[(k, a)], List.pairwise_singleton _ _⟩ := by
  obtain ⟨entries, sorted⟩ := D
  simp only [column?, diagonalOf, Keyed.get?]
  clear sorted
  induction entries with
  | nil => rfl
  | cons p entries ih =>
    rw [List.map_cons, Keyed.lookup, Keyed.lookup, ih]
    split
    case isTrue h => rw [h]; rfl
    case isFalse => rfl

theorem get?_diagonalOf (D : Keyed (LinearMap F)) (i j : String) :
    (diagonalOf D).get? i j = if i = j then D.get? j else none := by
  rw [get?, column?_diagonalOf]
  cases D.get? j with
  | none => simp
  | some a => simp [Keyed.get?, Keyed.lookup]

theorem contains_diagonalOf : (diagonalOf D).contains i j ↔ i = j ∧ D.contains j := by
  rw [contains, get?_diagonalOf]
  split <;> simp_all [Keyed.contains]

theorem occupied_diagonalOf (D : Keyed (LinearMap F)) : (diagonalOf D).Occupied := fun k hk => by
  rw [colKeys_diagonalOf, Keyed.mem_keys] at hk
  exact ⟨k, contains_diagonalOf.mpr ⟨rfl, hk⟩⟩

/-- Matrices without empty columns are the same if they have the same blocks. -/
theorem Occupied.ext_get? (hA : A.Occupied) (hB : B.Occupied) (h : ∀ i j, A.get? i j = B.get? i j) : A = B := by
  have hmem : ∀ j, j ∈ A.colKeys ↔ j ∈ B.colKeys := fun j => by
    rw [hA.mem_colKeys, hB.mem_colKeys]
    simp only [contains, h]
  refine congrArg BlockMatrix.mk (Keyed.ext_get? fun j => ?_)
  show A.column? j = B.column? j
  cases hcolumn : A.column? j with
  | none =>
    cases hcolumn' : B.column? j with
    | none => rfl
    | some column' =>
      obtain ⟨column, hc⟩ := BlockMatrix.mem_colKeys.mp ((hmem j).mpr (BlockMatrix.mem_colKeys.mpr ⟨column', hcolumn'⟩))
      cases hcolumn.symm.trans hc
  | some column =>
    obtain ⟨column', hcolumn'⟩ := BlockMatrix.mem_colKeys.mp ((hmem j).mp (BlockMatrix.mem_colKeys.mpr ⟨column, hcolumn⟩))
    rw [hcolumn']
    refine congrArg some (Keyed.ext_get? fun i => ?_)
    have hi := h i j
    rwa [get?, get?, hcolumn, hcolumn'] at hi

/-- Every block stands at a pair of equal names. -/
def OnDiagonal (A : BlockMatrix F) : Prop := ∀ i j, A.contains i j → i = j

theorem onDiagonal_diagonalOf (D : Keyed (LinearMap F)) : (diagonalOf D).OnDiagonal := fun _ _ h =>
  (contains_diagonalOf.mp h).1

theorem OnDiagonal.matched (h : A.OnDiagonal) : A.Matched where
  row_eq hi hi' := (h _ _ hi).trans (h _ _ hi').symm
  col_eq hj hj' := (h _ _ hj).symm.trans (h _ _ hj')

theorem pairwise_colHeads (A : BlockMatrix F) : A.colHeads.Pairwise fun p q => p.1 < q.1 := by
  refine A.columns.sorted.filterMap _ fun p q hlt p' hp q' hq => ?_
  obtain ⟨_, -, rfl⟩ := Option.map_eq_some_iff.mp hp
  obtain ⟨_, -, rfl⟩ := Option.map_eq_some_iff.mp hq
  exact hlt

theorem OnDiagonal.mem_colHeads (h : A.OnDiagonal) {K : LinearMap F} :
    (k, K) ∈ A.colHeads ↔ A.get? k k = some K := by
  rw [h.matched.mem_colHeads]
  refine ⟨fun ⟨i, hK⟩ => ?_, fun hK => ⟨k, hK⟩⟩
  obtain rfl : i = k := h i k (contains_iff.mpr ⟨K, hK⟩)
  exact hK

/-- Without empty columns, it is the matrix of its diagonal blocks. -/
theorem OnDiagonal.exists_eq_diagonalOf (hdiagonal : A.OnDiagonal) (hA : A.Occupied) : ∃ D, A = diagonalOf D := by
  refine ⟨⟨A.colHeads, pairwise_colHeads A⟩, ?_⟩
  refine hA.ext_get? (occupied_diagonalOf _) fun i j => Option.ext fun K => ?_
  rw [get?_diagonalOf]
  by_cases hij : i = j
  · subst hij
    rw [if_pos rfl, ← Keyed.mem_entries_iff, hdiagonal.mem_colHeads]
  · rw [if_neg hij]
    exact iff_of_false (fun hK => hij (hdiagonal i j (contains_iff.mpr ⟨K, hK⟩))) (by simp)

theorem colHeads_diagonalOf (D : Keyed (LinearMap F)) : (diagonalOf D).colHeads = D.entries := by
  simp [colHeads, diagonalOf, List.filterMap_map, Function.comp_def, Keyed.first?]

theorem rowHeads_diagonalOf (D : Keyed (LinearMap F)) : (diagonalOf D).rowHeads = D := by
  refine Keyed.ext_get? fun i => Option.ext fun K => ?_
  rw [get?_rowHeads, blocks_diagonalOf, ← Keyed.mem_entries_iff]
  constructor
  · intro h
    obtain ⟨t, ht, rfl⟩ := Option.map_eq_some_iff.mp h
    obtain ⟨p, hp, rfl⟩ := List.mem_map.mp (List.mem_of_find?_eq_some ht)
    obtain rfl : p.1 = i := by simpa using List.find?_some ht
    exact hp
  · intro hK
    cases hfind : (D.entries.map fun p => (p.1, p.1, p.2)).find? fun t => decide (t.1 = i) with
    | none =>
      have hnone := List.find?_eq_none.mp hfind _ (List.mem_map_of_mem hK)
      simp at hnone
    | some t =>
      obtain ⟨p, hp, rfl⟩ := List.mem_map.mp (List.mem_of_find?_eq_some hfind)
      obtain rfl : p.1 = i := by simpa using List.find?_some hfind
      have hget := (Keyed.mem_entries_iff _ _ _).mp hp
      rw [(Keyed.mem_entries_iff _ _ _).mp hK] at hget
      rw [Option.some.inj hget]
      rfl

/-- Square blocks have as many rows as columns together, whether these numbers are in range or not. -/
theorem rowCount_diagonalOf (h : ∀ k K, D.get? k = some K → K.rows = K.cols) :
    (diagonalOf D).rowCount = (diagonalOf D).colCount := by
  have hcount : ∀ p ∈ D.entries, p.2.rowCount = p.2.colCount := fun p hp => by
    have hsquare := h p.1 p.2 ((Keyed.mem_entries_iff _ _ _).mp hp)
    unfold LinearMap.rowCount LinearMap.colCount LinearMap.size
    rw [hsquare]
    split <;> rfl
  rw [rowCount, colCount, rowHeads_diagonalOf, colHeads_diagonalOf, Keyed.values, List.mapM_map]
  congr 1
  generalize D.entries = entries at hcount
  induction entries with
  | nil => rfl
  | cons p entries ih =>
    rw [List.mapM_cons, List.mapM_cons, ih fun q hq => hcount q (List.mem_cons_of_mem _ hq), Function.comp_apply,
      hcount p List.mem_cons_self]

end Families

section Action
variable {F ε : Type} [Arith F] {E : Keyed (LinearMap F)} {items : List (String × Array F)} {key : String} {s : Array F}
  {y b : BlockVector F}

/-- `y` has no segments but at the names of the items, and those that the blocks of the names make of the items. -/
structure Acted (E : Keyed (LinearMap F)) (items : List (String × Array F)) (y : BlockVector F) : Prop where
  mem : ∀ k, y.contains k → k ∈ items.map Prod.fst
  get?_eq : ∀ {k J s z}, E.get? k = some J → (k, s) ∈ items → J.apply s = .ok z → y.get? k = some z

theorem Acted.nil (E : Keyed (LinearMap F)) : Acted E [] BlockVector.empty where
  mem _ h := nomatch h
  get?_eq _ hmem := nomatch hmem

theorem Acted.skip (h : Acted E items y) (hkey : E.get? key = none) : Acted E (items ++ [(key, s)]) y where
  mem k hk := by
    rw [List.map_append]
    exact List.mem_append_left _ (h.mem k hk)
  get?_eq hJ hmem hz := by
    rcases List.mem_append.mp hmem with hmem | hmem
    · exact h.get?_eq hJ hmem hz
    · obtain ⟨rfl, rfl⟩ := Prod.mk.inj (List.mem_singleton.mp hmem)
      cases hkey.symm.trans hJ

theorem Acted.insert (h : Acted E items y) (hfresh : key ∉ items.map Prod.fst) {J : LinearMap F} {z : Array F}
    (hkey : E.get? key = some J) (hz : J.apply s = .ok z) :
    Acted E (items ++ [(key, s)]) ⟨y.segments.insert key z⟩ where
  mem k hk := by
    rw [List.map_append, List.mem_append, List.map_singleton, List.mem_singleton]
    exact (BlockVector.contains_insert.mp hk).imp_left (h.mem k)
  get?_eq {k L t z'} hL hmem hz' := by
    rw [BlockVector.get?_insert]
    rcases List.mem_append.mp hmem with hmem | hmem
    · rw [if_neg fun e => hfresh (List.mem_map.mpr ⟨_, hmem, e⟩)]
      exact h.get?_eq hL hmem hz'
    · obtain ⟨rfl, rfl⟩ := Prod.mk.inj (List.mem_singleton.mp hmem)
      obtain rfl := Option.some.inj (hkey.symm.trans hL)
      rw [if_pos rfl, Except.ok.inj (hz.symm.trans hz')]

/-- Each block acts on the segment of its name, and nothing is added up. -/
theorem exists_apply_diagonalOf (h : ∀ k J s, E.get? k = some J → b.get? k = some s → ∃ z, J.apply s = .ok z) :
    ∃ y, ((diagonalOf E).apply b : Outcome ε (BlockVector F)).result = .ok y ∧ Acted E b.segments.entries y := by
  have hends : ((diagonalOf E).apply b : Outcome ε (BlockVector F)).Ends (Acted E b.segments.entries)
      (fun _ => False) fun _ => False := by
    refine Outcome.Ends.report_bind (Outcome.Ends.foldlM_of_append (Acted E) (.nil E) ?_)
    rintro done ⟨key, s⟩ todo hsplit y hy
    have hnodup : ((done ++ (key, s) :: todo).map Prod.fst).Nodup := hsplit ▸ b.nodup_keys
    have hfresh : key ∉ done.map Prod.fst := not_mem_map_of_nodup hnodup
    have hb : b.get? key = some s := BlockVector.mem_entries.mp (hsplit ▸ by simp)
    dsimp only
    rw [column?_diagonalOf]
    cases hE : E.get? key with
    | none => exact Outcome.Ends.pure_iff.mpr (hy.skip hE)
    | some J =>
      obtain ⟨z, hz⟩ := h key J s hE hb
      have hinsert : y.insertOrAdd key z = .ok ⟨y.segments.insert key z⟩ := by
        rw [BlockVector.insertOrAdd, BlockVector.get?_eq_none fun hc => hfresh (hy.mem key hc)]
      rw [Option.map_some]
      simp only [List.foldlM_cons, List.foldlM_nil, hz, bind_pure]
      refine Outcome.Ends.bind (p := (· = z)) rfl ?_
      rintro _ rfl
      rw [hinsert]
      exact hy.insert hfresh hE hz
  exact hends.exists_of_forall_not (fun _ => id) fun _ => id

end Action

section Inverses
variable {F : Type} [Scalar F] {eps : F} {D : Keyed (LinearMap F)} {C : BlockMatrix F} {k : String}
  {cause : InversionError} {m n : ℕ}

theorem InvertsAll.onDiagonal {items : List (String × String × LinearMap F)} (h : InvertsAll eps items C)
    (hitems : ∀ t ∈ items, t.1 = t.2.1) : C.OnDiagonal := fun j i hc => by
  obtain ⟨J, hJ⟩ := contains_iff.mp hc
  obtain ⟨K, hK, -⟩ := (h.get?_eq_some_iff i j J).mp hJ
  exact (hitems _ hK).symm

/-- There is one matrix of inverses. -/
theorem InvertsAll.unique {items : List (String × String × LinearMap F)} {C' : BlockMatrix F}
    (h : InvertsAll eps items C) (h' : InvertsAll eps items C') : C = C' :=
  h.occupied.ext_get? h'.occupied fun j i => Option.ext fun J => by
    rw [h.get?_eq_some_iff, h'.get?_eq_some_iff]

theorem InvertsAll.forall_mem_entries (h : InvertsAll eps (diagonalOf D).blocks C) :
    ∀ p ∈ D.entries, ∃ J, (p.2.inverse eps).result = .ok J := by
  have hinverted := h.inverted
  rwa [blocks_diagonalOf, List.forall_mem_map] at hinverted

omit [Scalar F] in
theorem fits_of_colCount (hn : (diagonalOf D).colCount = .ok n) : ∀ p ∈ D.entries, p.2.Fits := fun p hp => by
  refine (onDiagonal_diagonalOf D).matched.fits hn (i := p.1) (j := p.1) ?_
  rw [get?_diagonalOf, if_pos rfl]
  exact (Keyed.mem_entries_iff _ _ _).mp hp

theorem findSome?_blocks_diagonalOf (D : Keyed (LinearMap F)) :
    (diagonalOf D).blocks.findSome? (fun t => failure? eps t.2.2) = D.entries.findSome? fun p => failure? eps p.2 := by
  rw [blocks_diagonalOf, List.findSome?_map]
  rfl

/-- The block of `k` has no inverse, for this reason, and all items before it have one. -/
def FirstFailure (eps : F) (items : List (String × LinearMap F)) (k : String) (cause : InversionError) : Prop :=
  ∃ before K after, items = before ++ (k, K) :: after ∧ (∀ p ∈ before, ∃ J, (p.2.inverse eps).result = .ok J) ∧
    (K.inverse eps).result = .error (.error cause)

theorem FirstFailure.cons {items : List (String × LinearMap F)} (h : FirstFailure eps items k cause)
    {p : String × LinearMap F} (hp : ∃ J, (p.2.inverse eps).result = .ok J) : FirstFailure eps (p :: items) k cause := by
  obtain ⟨before, K, after, rfl, hbefore, hK⟩ := h
  exact ⟨p :: before, K, after, rfl, List.forall_mem_cons.mpr ⟨hp, hbefore⟩, hK⟩

theorem FirstFailure.not_forall {items : List (String × LinearMap F)} (h : FirstFailure eps items k cause) :
    ¬∀ p ∈ items, ∃ J, (p.2.inverse eps).result = .ok J := fun hinverted => by
  obtain ⟨before, K, after, rfl, -, hK⟩ := h
  obtain ⟨J, hJ⟩ := hinverted (k, K) (by simp)
  cases hJ.symm.trans hK

theorem findSome?_failure_eq_none {items : List (String × LinearMap F)}
    (h : ∀ p ∈ items, ∃ J, (p.2.inverse eps).result = .ok J) : items.findSome? (fun p => failure? eps p.2) = none :=
  List.findSome?_eq_none_iff.mpr fun p hp => by
    obtain ⟨J, hJ⟩ := h p hp
    rw [failure?, hJ]

theorem FirstFailure.findSome?_eq {items : List (String × LinearMap F)} (h : FirstFailure eps items k cause) :
    items.findSome? (fun p => failure? eps p.2) = some cause := by
  obtain ⟨before, K, after, rfl, hbefore, hK⟩ := h
  rw [List.findSome?_append, findSome?_failure_eq_none hbefore, List.findSome?_cons, failure?, hK]
  rfl

/-- The inverse is there if those of all blocks are: these are square, and so is the whole. -/
theorem exists_inverse_iff (hm : (diagonalOf D).rowCount = .ok m) (hn : (diagonalOf D).colCount = .ok n) :
    (∃ C, ((diagonalOf D).inverse eps).result = .ok C) ↔ ∀ p ∈ D.entries, ∃ J, (p.2.inverse eps).result = .ok J := by
  have hends := (occupied_diagonalOf D).ends_inverse hm hn eps
  constructor
  · rintro ⟨C, hC⟩
    exact (hends.of_result_eq_ok hC).2.2.forall_mem_entries
  · intro hinverted
    have hsquare : m = n := by
      have hcounts := rowCount_diagonalOf (D := D) fun k K hK => by
        obtain ⟨J, hJ⟩ := hinverted (k, K) ((Keyed.mem_entries_iff _ _ _).mpr hK)
        exact ((LinearMap.Sized.yields_inverse eps ⟨rfl, rfl⟩).of_result_eq_ok hJ).1
      rw [hm, hn] at hcounts
      exact Except.ok.inj hcounts
    refine (hends.exists_of_forall_not (fun e he => ?_) fun _ => id).imp fun _ hC => hC.1
    rcases he with ⟨hne, -⟩ | ⟨-, hnot, -⟩ | ⟨-, -, cause, -, hsome⟩
    · exact hne hsquare
    · exact hnot (onDiagonal_diagonalOf D).matched
    · rw [findSome?_blocks_diagonalOf, findSome?_failure_eq_none hinverted] at hsome
      cases hsome

theorem FirstFailure.inverse_eq (h : FirstFailure eps D.entries k cause) (hm : (diagonalOf D).rowCount = .ok m)
    (hn : (diagonalOf D).colCount = .ok m) :
    ((diagonalOf D).inverse eps).result = .error (.error (.linearMap cause)) := by
  have hends := (occupied_diagonalOf D).ends_inverse hm hn eps
  cases hresult : ((diagonalOf D).inverse eps).result with
  | ok C => exact absurd ((exists_inverse_iff hm hn).mp ⟨C, hresult⟩) h.not_forall
  | error stop =>
    cases stop with
    | fault f => exact (hends.of_result_eq_fault hresult).elim
    | error e =>
      rcases hends.of_result_eq_error hresult with ⟨hne, -⟩ | ⟨-, hnot, -⟩ | ⟨-, -, cause', rfl, hsome⟩
      · exact absurd rfl hne
      · exact absurd (onDiagonal_diagonalOf D).matched hnot
      · rw [findSome?_blocks_diagonalOf, h.findSome?_eq] at hsome
        rw [Option.some.inj hsome]

/-- The diagonal block of `k` has no inverse, for this reason, and those of the names before it have one. -/
structure FailsFirst (eps : F) (A : BlockMatrix F) (k : String) (cause : InversionError) : Prop where
  mem : k ∈ A.colKeys
  failure : ∃ K, A.get? k k = some K ∧ (K.inverse eps).result = .error (.error cause)
  before : ∀ j ∈ A.colKeys, j < k → ∃ K J, A.get? j j = some K ∧ (K.inverse eps).result = .ok J

theorem FirstFailure.failsFirst {cause : InversionError} (h : FirstFailure eps D.entries k cause) :
    FailsFirst eps (diagonalOf D) k cause := by
  obtain ⟨before, K, after, hsplit, hbefore, hK⟩ := h
  have hget : ∀ p ∈ D.entries, (diagonalOf D).get? p.1 p.1 = some p.2 := fun p hp => by
    rw [get?_diagonalOf, if_pos rfl]
    exact (Keyed.mem_entries_iff _ _ _).mp hp
  have hmem : (k, K) ∈ D.entries := hsplit ▸ by simp
  refine ⟨?_, ⟨K, hget _ hmem, hK⟩, fun j hj hlt => ?_⟩
  · rw [colKeys_diagonalOf]
    exact List.mem_map.mpr ⟨_, hmem, rfl⟩
  · have hkeys : (diagonalOf D).colKeys = before.map Prod.fst ++ k :: after.map Prod.fst := by
      rw [colKeys_diagonalOf, Keyed.keys, hsplit, List.map_append, List.map_cons]
    have hsorted : (diagonalOf D).colKeys.Pairwise (· < ·) := List.pairwise_map.mpr (diagonalOf D).columns.sorted
    obtain ⟨p, hp, rfl⟩ := List.mem_map.mp ((mem_before_iff (hkeys ▸ hsorted)).mpr ⟨hkeys ▸ hj, hlt⟩)
    obtain ⟨J, hJ⟩ := hbefore p hp
    exact ⟨p.2, J, hget p (hsplit ▸ List.mem_append_left _ hp), hJ⟩

end Inverses

end BlockElimination.BlockMatrix
