import BlockElimination.Proofs.BlockMatrix.Looks
import BlockElimination.Proofs.BlockMatrix.Meetings
import BlockElimination.Proofs.BlockMatrix.TransposedTwice
import BlockElimination.Proofs.LinearMap.Entrywise
import BlockElimination.Proofs.LinearMap.Equality
import BlockElimination.Proofs.LinearMap.Marks

/-!
# Identities of a block matrix

The identities of a matrix are block-diagonal, with one multiple of an identity for each row or each column. In a
product with one of them no two pairs of blocks meet at one place, so nothing is added up, and a multiple of an identity
keeps the kind of the map that it multiplies. So the product has the blocks of the matrix, with their representations,
and if one is neutral they have their numbers too.
-/
namespace BlockElimination

namespace LinearMap

variable {F : Type} [Arith F] {K : LinearMap F}

theorem unmarked_scale_one (hone : ∀ x : F, 1 * x = x) (K : LinearMap F) : (K.scale 1).unmarked = K.unmarked := by
  have harray : ∀ a : Array F, Kernel.scale 1 a = a := fun a => by simp [Kernel.scale, hone]
  induction K with
  | dense d =>
    obtain ⟨rows, cols, array, flipped, hsize⟩ := d
    simp [scale, Dense.scale, unmarked, Dense.unmarked, Stored.unmarked, harray]
  | kron a b iha _ => simp [scale, unmarked, iha]
  | diag d => simp [scale, unmarked, ofDiagonal, Stored.unmarked, harray]
  | scalar n alpha => simp [scale, unmarked, ofScalar, Stored.unmarked, hone]

omit [Arith F] in
theorem expectKind_of_mem {kinds : List Kind} (h : K.kind ∈ kinds) : K.expectKind kinds = .ok K := if_pos h

theorem identity_mul (hK : K.Fits) : (identity K.rows).mul K = .ok (K.scale 1) := by
  have hsize : (identity K.rows : LinearMap F).size = .ok (K.rows, K.rows) := size_of_fits hK.rows_lt.1
  have hkind : (K.scale 1).kind ∈
      [Operation.multiply.resultKind (identity K.rows : LinearMap F).kind K.kind, .dense] := by
    rw [kind_scale]
    exact List.mem_cons.mpr (.inl (Kind.scalar_ofProduct K.kind).symm)
  rw [mul, hsize, size_of_fits hK]
  exact (if_neg (not_not.mpr rfl)).trans (expectKind_of_mem hkind)

/-- Where one is neutral on both sides, it does not matter which of two multiples of the identity is scaled. -/
theorem mul_identity (hone : ∀ x : F, 1 * x = x ∧ x * 1 = x) (hK : K.Fits) :
    K.mul (identity K.cols) = .ok (K.scale 1) := by
  have hsize : (identity K.cols : LinearMap F).size = .ok (K.cols, K.cols) := size_of_fits hK.rows_lt.2
  have hkind : (K.scale 1).kind ∈
      [Operation.multiply.resultKind K.kind (identity K.cols : LinearMap F).kind, .dense] := by
    rw [kind_scale]
    exact List.mem_cons.mpr (.inl (Kind.ofProduct_scalar K.kind).symm)
  rw [mul, hsize, size_of_fits hK]
  refine (if_neg (not_not.mpr rfl)).trans ?_
  cases K with
  | scalar n alpha =>
    -- Of two multiples of the identity the right one is scaled, by the number of the left one.
    have hscale : (identity n : LinearMap F).scale alpha.value = (scalar n alpha).scale 1 := by
      simp [identity, ofScalar, scale, hone]
    rw [← hscale] at hkind ⊢
    exact expectKind_of_mem hkind
  | _ => exact expectKind_of_mem hkind

end LinearMap

theorem bind_eq_of_eq_ok {α β : Type} {e : Except Fault α} {g : α → Except Fault β} {a : α} {r : Except Fault β}
    (he : e = .ok a) (h : g a = r) : (e >>= g) = r := by
  subst he
  exact h

/-- Values that `f` does not tell apart are equal, key by key. -/
theorem Keyed.isEqv_of_map_eq {α β : Type} {eq : α → α → Bool} {f : α → β} {m n : Keyed α} (h : m.map f = n.map f)
    (heq : ∀ p ∈ n.entries, ∀ v, f v = f p.2 → eq v p.2 = true) : m.isEqv eq n = true := by
  obtain ⟨l, hl⟩ := m
  obtain ⟨l', hl'⟩ := n
  have hentries : (l.map fun p => (p.1, f p.2)) = l'.map fun p => (p.1, f p.2) := congrArg Keyed.entries h
  replace heq : ∀ p ∈ l', ∀ v, f v = f p.2 → eq v p.2 = true := heq
  simp only [isEqv, size, Bool.and_eq_true, beq_iff_eq]
  clear h hl hl'
  induction l' generalizing l with
  | nil =>
    cases l with
    | nil => simp
    | cons p l => cases hentries
  | cons q l' ih =>
    cases l with
    | nil => cases hentries
    | cons p l =>
      obtain ⟨hhead, htail⟩ := List.cons.inj hentries
      obtain ⟨hkey, hvalue⟩ := Prod.mk.inj hhead
      obtain ⟨hlength, hrest⟩ := ih l htail fun q hq => heq q (List.mem_cons_of_mem _ hq)
      have hpair : eq p.2 q.2 = true := heq q List.mem_cons_self p.2 hvalue
      simp [hlength, hrest, hkey, hpair]

namespace BlockMatrix

section Marks
variable {F : Type} {A : BlockMatrix F}

/-- The matrix without marks on the storage of its blocks. -/
def unmarked (A : BlockMatrix F) : BlockMatrix F := ⟨A.mapBlocks LinearMap.unmarked⟩

theorem column?_unmarked (A : BlockMatrix F) (j : String) :
    A.unmarked.column? j = (A.column? j).map (Keyed.map LinearMap.unmarked) :=
  get?_mapBlocks _ _ _

theorem get?_unmarked (A : BlockMatrix F) (i j : String) :
    A.unmarked.get? i j = (A.get? i j).map LinearMap.unmarked := by
  rw [get?, get?, column?_unmarked]
  cases A.column? j with
  | none => rfl
  | some column => exact Keyed.get?_map _ _ _

theorem Occupied.unmarked (h : A.Occupied) : A.unmarked.Occupied := by
  have hkeys : A.unmarked.colKeys = A.colKeys := Keyed.keys_map _ _
  have hcontains : ∀ i j, A.unmarked.contains i j = A.contains i j := fun i j => by
    rw [contains, contains, get?_unmarked, Option.isSome_map]
  simpa only [Occupied, hkeys, hcontains] using h

end Marks

section Units
variable {F : Type} [Arith F] {A B C : BlockMatrix F} {row col : String} {K : LinearMap F}

omit [Arith F] in
theorem get?_diagonalOf_map {D : Keyed (LinearMap F)} {f : LinearMap F → LinearMap F} {i k : String} :
    (diagonalOf (D.map f)).get? i k = some K ↔ i = k ∧ ∃ L, D.get? k = some L ∧ f L = K := by
  rw [get?_diagonalOf, Keyed.get?_map]
  by_cases hik : i = k
  · rw [if_pos hik, Option.map_eq_some_iff]
    exact (and_iff_right hik).symm
  · rw [if_neg hik]
    exact iff_of_false (by simp) fun h => hik h.1

/-- Blocks for new columns are inserted whatever their sizes are. -/
theorem exists_insertAll_identity {dims : List (String × ℕ)} (hnodup : (dims.map Prod.fst).Nodup)
    (hnew : ∀ p ∈ dims, p.1 ∉ A.colKeys) :
    ∃ I, A.insertAll (dims.map fun p => (p.1, p.1, .identity p.2)) = .ok I := by
  induction dims generalizing A with
  | nil => exact ⟨A, rfl⟩
  | cons p dims ih =>
    obtain ⟨hp, hnodup⟩ := List.nodup_cons.mp hnodup
    obtain ⟨hpnew, hnew⟩ := List.forall_mem_cons.mp hnew
    have hinsert : A.insertOrAdd p.1 p.1 (.identity p.2) = .ok (A.set p.1 p.1 (.identity p.2)) := by
      refine insertOrAdd_fresh (fun hc => hpnew (mem_colKeys_of_contains hc)) fun i L hL => ?_
      exact absurd (mem_colKeys_of_contains (contains_iff.mpr ⟨L, hL⟩)) hpnew
    have hrest : ∀ q ∈ dims, q.1 ∉ (A.set p.1 p.1 (.identity p.2)).colKeys := by
      intro q hq hmem
      rcases mem_colKeys_set.mp hmem with hkey | hmem
      · exact hp (List.mem_map.mpr ⟨q, hq, hkey⟩)
      · exact hnew q hq hmem
    rw [List.map_cons, insertAll, List.foldlM_cons]
    dsimp only
    rw [hinsert]
    exact ih hnodup hrest

/-- The identity over the names of a family, with a dimension for each. -/
theorem identity_entries (D : Keyed (LinearMap F)) (dim : LinearMap F → ℕ) :
    (identity (D.entries.map fun p => (p.1, dim p.2)) : Except Fault (BlockMatrix F)) =
      .ok (diagonalOf (D.map fun K => .identity (dim K))) := by
  have hkeys : (D.entries.map fun p => (p.1, dim p.2)) =
      D.keys.map fun k => (k, ((D.get? k).map dim).getD 0) := by
    rw [Keyed.keys, List.map_map]
    refine List.map_congr_left fun p hp => ?_
    simp [(Keyed.mem_entries_iff _ _ _).mp hp]
  have hfirst : ((D.entries.map fun p => (p.1, dim p.2)).map Prod.fst) = D.keys := by
    rw [List.map_map]
    rfl
  have hexists : ∃ I : BlockMatrix F, identity (D.entries.map fun p => (p.1, dim p.2)) = .ok I :=
    exists_insertAll_identity (hfirst ▸ D.nodup_keys) fun _ _ => List.not_mem_nil
  obtain ⟨I, hidentity⟩ := hexists
  have hblocks := hidentity
  rw [hkeys] at hblocks
  obtain ⟨hconforms, hget⟩ := (yields_identity D.nodup_keys _).of_eq_ok hblocks
  have heq : I = diagonalOf (D.map fun K => .identity (dim K)) := by
    refine hconforms.occupied.ext_get? (occupied_diagonalOf _) fun i j => Option.ext fun K => ?_
    rw [hget, get?_diagonalOf_map, Keyed.mem_keys, Keyed.contains_iff]
    refine and_congr_right fun _ => ?_
    constructor
    · rintro ⟨⟨L, hL⟩, rfl⟩
      exact ⟨L, hL, by rw [hL]; rfl⟩
    · rintro ⟨L, hL, rfl⟩
      exact ⟨⟨L, hL⟩, by rw [hL]; rfl⟩
  rw [hidentity, heq]

/-- The identity over the names of the rows. -/
def leftUnit (A : BlockMatrix F) : BlockMatrix F := diagonalOf (A.rowHeads.map fun K => .identity K.rows)

/-- The identity over the names of the columns. -/
def rightUnit (A : BlockMatrix F) : BlockMatrix F :=
  diagonalOf ((⟨A.colHeads, pairwise_colHeads A⟩ : Keyed (LinearMap F)).map fun K => .identity K.cols)

section Dimensions
variable (hfits : ∀ i j K, A.get? i j = some K → K.Fits)
include hfits

omit [Arith F] in
theorem fits_of_mem_rowHeads {p : String × LinearMap F} (hp : p ∈ A.rowHeads.entries) : p.2.Fits := by
  obtain ⟨j, hK⟩ := exists_get?_of_rowHeads ((Keyed.mem_entries_iff _ _ _).mp hp)
  exact hfits p.1 j p.2 hK

omit [Arith F] in
theorem fits_of_mem_colHeads {p : String × LinearMap F} (hp : p ∈ A.colHeads) : p.2.Fits := by
  obtain ⟨i, hK, -⟩ := mem_colHeads_iff.mp hp
  exact hfits i p.1 p.2 hK

theorem leftIdentity_eq : A.leftIdentity = .ok A.leftUnit := by
  have hheads : ∀ p ∈ A.rowHeads.entries, p.2.Fits := fun p hp => fits_of_mem_rowHeads hfits hp
  have hcounts : (A.blocks.mapM fun t => t.2.2.rowCount) = .ok (A.blocks.map fun t => t.2.2.rows) :=
    mapM_eq_ok fun t ht => LinearMap.rowCount_of_fits (hfits t.1 t.2.1 t.2.2 (mem_blocks.mp ht))
  have hdims : (A.rowHeads.entries.mapM fun p => (p.1, ·) <$> p.2.rowCount) =
      .ok (A.rowHeads.entries.map fun p => (p.1, p.2.rows)) :=
    mapM_eq_ok fun p hp => congrArg _ (LinearMap.rowCount_of_fits (hheads p hp))
  have hidentity := identity_entries A.rowHeads LinearMap.rows
  exact bind_eq_of_eq_ok hcounts (bind_eq_of_eq_ok hdims hidentity)

theorem rightIdentity_eq : A.rightIdentity = .ok A.rightUnit := by
  have hheads : ∀ p ∈ A.colHeads, p.2.Fits := fun p hp => fits_of_mem_colHeads hfits hp
  have hdims : (A.colHeads.mapM fun p => (p.1, ·) <$> p.2.colCount) = .ok (A.colHeads.map fun p => (p.1, p.2.cols)) :=
    mapM_eq_ok fun p hp => congrArg _ (LinearMap.colCount_of_fits (hheads p hp))
  have hidentity := identity_entries (⟨A.colHeads, pairwise_colHeads A⟩ : Keyed (LinearMap F)) LinearMap.cols
  exact bind_eq_of_eq_ok hdims hidentity

theorem rowCount_leftUnit : A.leftUnit.rowCount = A.rowCount := by
  have hcounts : ∀ K ∈ A.rowHeads.values, (LinearMap.identity K.rows : LinearMap F).rowCount = K.rowCount := by
    intro K hK
    obtain ⟨p, hp, rfl⟩ := List.mem_map.mp hK
    have hpfits := fits_of_mem_rowHeads hfits hp
    have hunit : (LinearMap.identity p.2.rows : LinearMap F).Fits := hpfits.rows_lt.1
    exact (LinearMap.rowCount_of_fits hunit).trans (LinearMap.rowCount_of_fits hpfits).symm
  have hvalues : (A.rowHeads.map fun K => (.identity K.rows : LinearMap F)).values =
      A.rowHeads.values.map fun K => .identity K.rows := by
    simp [Keyed.values, Keyed.map]
  rw [rowCount, rowCount, leftUnit, rowHeads_diagonalOf, hvalues, List.mapM_map]
  exact congrArg (· >>= Size.sum) (mapM_congr hcounts)

theorem colCount_rightUnit : A.rightUnit.colCount = A.colCount := by
  have hcounts : ∀ p ∈ A.colHeads, (LinearMap.identity p.2.cols : LinearMap F).colCount = p.2.colCount := by
    intro p hp
    have hpfits := fits_of_mem_colHeads hfits hp
    have hunit : (LinearMap.identity p.2.cols : LinearMap F).Fits := hpfits.rows_lt.2
    exact (LinearMap.colCount_of_fits hunit).trans (LinearMap.colCount_of_fits hpfits).symm
  rw [colCount, colCount, rightUnit, colHeads_diagonalOf, Keyed.map, List.mapM_map]
  exact congrArg (· >>= Size.sum) (mapM_congr hcounts)

end Dimensions

theorem rows_eq_cols_of_identities {D : Keyed (LinearMap F)} {dim : LinearMap F → ℕ} (k : String) (K : LinearMap F)
    (hK : (D.map fun L => .identity (dim L)).get? k = some K) : K.rows = K.cols := by
  rw [Keyed.get?_map, Option.map_eq_some_iff] at hK
  obtain ⟨L, -, rfl⟩ := hK
  rfl

theorem colCount_leftUnit (hfits : ∀ i j K, A.get? i j = some K → K.Fits) : A.leftUnit.colCount = A.rowCount :=
  (rowCount_diagonalOf rows_eq_cols_of_identities).symm.trans (rowCount_leftUnit hfits)

theorem rowCount_rightUnit (hfits : ∀ i j K, A.get? i j = some K → K.Fits) : A.rightUnit.rowCount = A.colCount :=
  (rowCount_diagonalOf rows_eq_cols_of_identities).trans (colCount_rightUnit hfits)

end Units

section Products
variable {F ε : Type} [Arith F] {A C : BlockMatrix F} {m n : String → ℕ} {a : LinearMap F} {i j k : String}

theorem get?_leftUnit (hA : A.Conforms m n) :
    A.leftUnit.get? i k = some a ↔ i = k ∧ (∃ j, A.contains k j) ∧ a = .identity (m k) := by
  rw [leftUnit, get?_diagonalOf_map]
  refine and_congr_right fun _ => ?_
  constructor
  · rintro ⟨K, hK, rfl⟩
    obtain ⟨j, hget⟩ := exists_get?_of_rowHeads hK
    exact ⟨⟨j, contains_iff.mpr ⟨K, hget⟩⟩, by rw [(hA.sized hget).1]⟩
  · rintro ⟨hrow, rfl⟩
    obtain ⟨K, hK⟩ := Keyed.contains_iff.mp (Keyed.mem_keys.mp (mem_rowKeys.mpr hrow))
    obtain ⟨j, hget⟩ := exists_get?_of_rowHeads hK
    exact ⟨K, hK, by rw [(hA.sized hget).1]⟩

theorem get?_rightUnit (hA : A.Conforms m n) :
    A.rightUnit.get? k j = some a ↔ k = j ∧ (∃ i, A.contains i j) ∧ a = .identity (n j) := by
  rw [rightUnit, get?_diagonalOf_map]
  simp only [← Keyed.mem_entries_iff]
  refine and_congr_right fun _ => ?_
  constructor
  · rintro ⟨K, hK, rfl⟩
    obtain ⟨i, hget, -⟩ := mem_colHeads_iff.mp hK
    exact ⟨⟨i, contains_iff.mpr ⟨K, hget⟩⟩, by rw [(hA.sized hget).2]⟩
  · rintro ⟨⟨i, hi⟩, rfl⟩
    have hkey : j ∈ A.colHeads.map Prod.fst := map_fst_colHeads hA ▸ mem_colKeys_of_contains hi
    obtain ⟨⟨j, K⟩, hK, rfl⟩ := List.mem_map.mp hkey
    obtain ⟨i', hget, -⟩ := mem_colHeads_iff.mp hK
    exact ⟨K, hK, by rw [(hA.sized hget).2]⟩

theorem contains_leftUnit (hA : A.Conforms m n) (h : A.leftUnit.contains i k) : i = k := by
  obtain ⟨a, ha⟩ := contains_iff.mp h
  exact ((get?_leftUnit hA).mp ha).1

theorem contains_rightUnit (hA : A.Conforms m n) (h : A.rightUnit.contains k j) : k = j := by
  obtain ⟨a, ha⟩ := contains_iff.mp h
  exact ((get?_rightUnit hA).mp ha).1

/-- A product that has each block from one pair, which multiplies to the block scaled by one. -/
theorem HasProducts.get?_eq {L R : BlockMatrix F} (h : HasProducts L R C)
    (hpair : ∀ i j K, A.get? i j = some K →
      ∃ k a b, L.get? i k = some a ∧ R.get? k j = some b ∧ a.mul b = .ok (K.scale 1))
    (hcontains : ∀ i k j, L.contains i k → R.contains k j → A.contains i j) (i j : String) :
    C.get? i j = (A.get? i j).map (LinearMap.scale 1) := by
  cases hget : A.get? i j with
  | some K =>
    obtain ⟨k, a, b, ha, hb, hmul⟩ := hpair i j K hget
    obtain ⟨P, hP, hproduct⟩ := h.exists_product ha hb
    rw [hP, Except.ok.inj (hproduct.symm.trans hmul)]
    rfl
  | none =>
    refine get?_eq_none fun hc => ?_
    obtain ⟨k, hik, hkj⟩ := h.exists_factors hc
    have hplace := hcontains i k j hik hkj
    rw [contains, hget] at hplace
    cases hplace

theorem exists_leftUnit_mul (hA : A.Conforms m n) (hfits : ∀ i j K, A.get? i j = some K → K.Fits) :
    ∃ C, (A.leftUnit.mul A : Outcome ε (BlockMatrix F)).result = .ok C ∧ C.Occupied ∧
      ∀ i j, C.get? i j = (A.get? i j).map (LinearMap.scale 1) := by
  have hmul : ∀ {k j b}, A.get? k j = some b → (LinearMap.identity (m k)).mul b = .ok (b.scale 1) := by
    intro k j b hb
    rw [← (hA.sized hb).1]
    exact LinearMap.identity_mul (hfits k j b hb)
  have honce : MeetOnce A.leftUnit A := fun i j k k' hk _ hk' _ =>
    (contains_leftUnit hA hk).symm.trans (contains_leftUnit hA hk')
  obtain ⟨C, hC, hoccupied, hproducts⟩ := honce.exists_hasProducts (n := n) (ε := ε) fun {i k j a b} ha hb => by
    obtain ⟨-, -, rfl⟩ := (get?_leftUnit hA).mp ha
    exact ⟨_, hmul hb, LinearMap.fits_scale.mpr (hfits k j b hb), (b.cols_scale 1).trans (hA.sized hb).2⟩
  refine ⟨C, hC, hoccupied, hproducts.get?_eq ?_ ?_⟩
  · intro i j K hK
    have hunit := (get?_leftUnit hA).mpr ⟨rfl, ⟨j, contains_iff.mpr ⟨K, hK⟩⟩, rfl⟩
    exact ⟨i, _, K, hunit, hK, hmul hK⟩
  · intro i k j hik hkj
    rwa [contains_leftUnit hA hik]

theorem exists_mul_rightUnit (hA : A.Conforms m n) (hfits : ∀ i j K, A.get? i j = some K → K.Fits)
    (hone : ∀ x : F, 1 * x = x ∧ x * 1 = x) :
    ∃ C, (A.mul A.rightUnit : Outcome ε (BlockMatrix F)).result = .ok C ∧ C.Occupied ∧
      ∀ i j, C.get? i j = (A.get? i j).map (LinearMap.scale 1) := by
  have hmul : ∀ {i k a}, A.get? i k = some a → a.mul (.identity (n k)) = .ok (a.scale 1) := by
    intro i k a ha
    rw [← (hA.sized ha).2]
    exact LinearMap.mul_identity hone (hfits i k a ha)
  have honce : MeetOnce A A.rightUnit := fun i j k k' _ hk _ hk' =>
    (contains_rightUnit hA hk).trans (contains_rightUnit hA hk').symm
  obtain ⟨C, hC, hoccupied, hproducts⟩ := honce.exists_hasProducts (n := n) (ε := ε) fun {i k j a b} ha hb => by
    obtain ⟨rfl, -, rfl⟩ := (get?_rightUnit hA).mp hb
    exact ⟨_, hmul ha, LinearMap.fits_scale.mpr (hfits i k a ha), (a.cols_scale 1).trans (hA.sized ha).2⟩
  refine ⟨C, hC, hoccupied, hproducts.get?_eq ?_ ?_⟩
  · intro i j K hK
    have hunit := (get?_rightUnit hA).mpr ⟨rfl, ⟨i, contains_iff.mpr ⟨K, hK⟩⟩, rfl⟩
    exact ⟨j, K, _, hK, hunit, hmul hK⟩
  · intro i k j hik hkj
    rwa [← contains_rightUnit hA hkj]

/-- Scaling by a neutral one leaves the blocks as they are, apart from their marks. -/
theorem Occupied.unmarked_eq_of_scale_one (hA : A.Occupied) (hC : C.Occupied) (hone : ∀ x : F, 1 * x = x)
    (hget : ∀ i j, C.get? i j = (A.get? i j).map (LinearMap.scale 1)) : C.unmarked = A.unmarked := by
  refine hC.unmarked.ext_get? hA.unmarked fun i j => ?_
  have hscale : (LinearMap.unmarked ∘ LinearMap.scale 1 : LinearMap F → LinearMap F) = LinearMap.unmarked :=
    funext fun K => K.unmarked_scale_one hone
  rw [get?_unmarked, get?_unmarked, hget, Option.map_map, hscale]

/-- Matrices that store the same numbers the same way are equal without regard to storage. -/
theorem beq_of_unmarked_eq (hunmarked : C.unmarked = A.unmarked)
    (hregular : ∀ i j K, A.get? i j = some K → K.Regular) : (C == A) = true := by
  refine Keyed.isEqv_of_map_eq (f := Keyed.map LinearMap.unmarked) (congrArg columns hunmarked) ?_
  intro column hcolumn other hother
  refine Keyed.isEqv_of_map_eq (f := LinearMap.unmarked) hother ?_
  intro block hblock K hK
  have hget : A.get? block.1 column.1 = some block.2 := get?_eq_some.mpr
    ⟨column.2, (Keyed.mem_entries_iff _ _ _).mp hcolumn, (Keyed.mem_entries_iff _ _ _).mp hblock⟩
  exact (hregular _ _ _ hget).beq_of_unmarked_eq hK

end Products

section Main
variable {F ε : Type} [Scalar F] {A : BlockMatrix F}

/-- Where one is neutral, the identities that are built from a matrix are neutral for it: the products give back the
matrix, each block with its representation, and they are equal to it in the sense of `==` if its numbers are to
themselves. An identity has as many rows and columns as the side that it is multiplied to. Of all the sizes only those
of the single blocks have to be in range. -/
theorem Reachable.identities (hA : A.Reachable) (hrows : ¬A.RowDisagrees)
    (hfits : ∀ i j K, A.get? i j = some K → K.Fits) (hregular : ∀ i j K, A.get? i j = some K → K.Regular)
    (hone : ∀ x : F, 1 * x = x ∧ x * 1 = x) :
    (∃ I C, A.leftIdentity = .ok I ∧ (I.mul A : Outcome ε (BlockMatrix F)).result = .ok C ∧ (C == A) = true ∧
      C.unmarked = A.unmarked ∧ I.rowCount = A.rowCount ∧ I.colCount = A.rowCount) ∧
    ∃ I C, A.rightIdentity = .ok I ∧ (A.mul I : Outcome ε (BlockMatrix F)).result = .ok C ∧ (C == A) = true ∧
      C.unmarked = A.unmarked ∧ I.rowCount = A.colCount ∧ I.colCount = A.colCount := by
  obtain ⟨m, n, hconforms⟩ := hA.wellFormed.exists_conforms hrows
  have hback : ∀ {C : BlockMatrix F}, C.Occupied → (∀ i j, C.get? i j = (A.get? i j).map (LinearMap.scale 1)) →
      C.unmarked = A.unmarked := fun hC hget =>
    hconforms.occupied.unmarked_eq_of_scale_one hC (fun x => (hone x).1) hget
  constructor
  · obtain ⟨C, hC, hoccupied, hget⟩ := exists_leftUnit_mul (ε := ε) hconforms hfits
    have hunmarked := hback hoccupied hget
    exact ⟨A.leftUnit, C, leftIdentity_eq hfits, hC, beq_of_unmarked_eq hunmarked hregular, hunmarked,
      rowCount_leftUnit hfits, colCount_leftUnit hfits⟩
  · obtain ⟨C, hC, hoccupied, hget⟩ := exists_mul_rightUnit (ε := ε) hconforms hfits hone
    have hunmarked := hback hoccupied hget
    exact ⟨A.rightUnit, C, rightIdentity_eq hfits, hC, beq_of_unmarked_eq hunmarked hregular, hunmarked,
      rowCount_rightUnit hfits, colCount_rightUnit hfits⟩

end Main

section Witness

/-- One is neutral also for the value that differs from itself. -/
theorem gapped_one_mul (x : Gapped) : 1 * x = x ∧ x * 1 = x := by
  cases x with
  | nan => exact ⟨rfl, rfl⟩
  | int a => exact ⟨congrArg Gapped.int (one_mul a), congrArg Gapped.int (mul_one a)⟩

def wideBlock : LinearMap Gapped := .ofEntries 2 3 fun i j => .int (3 * i + j)

/-- A block of each representation: a product beside a multiple of the identity, over a diagonal and a transpose. -/
def varied : BlockMatrix Gapped :=
  (((((BlockMatrix.empty.insertInPlace "u" "x"
    (.kron (.ofScalar 2 (.int 5)) (.ofEntries 1 2 fun _ j => .int j))).1.insertInPlace "u" "y"
      (.ofScalar 2 (.int 7))).1.insertInPlace "v" "x" (.ofDiagonal #[.int 1, .int 2, .int 3, .int 4])).1.insertInPlace
        "w" "y" wideBlock.transpose).1.share 0).1

theorem varied_identities :
    (∃ I C, varied.leftIdentity = .ok I ∧ (I.mul varied : Outcome Unit _).result = .ok C ∧ (C == varied) = true ∧
      I.rowCount = .ok 9 ∧ I.colCount = .ok 9) ∧
    ∃ I C, varied.rightIdentity = .ok I ∧ (varied.mul I : Outcome Unit _).result = .ok C ∧ (C == varied) = true ∧
      I.rowCount = .ok 6 ∧ I.colCount = .ok 6 := by
  have hreachable : varied.Reachable :=
    .share 0 (.insertInPlace _ _ _ (.insertInPlace _ _ _ (.insertInPlace _ _ _ (.insertInPlace _ _ _ .empty))))
  obtain ⟨T, hT⟩ := exists_eq_ok (show varied.transpose.toBool = true by decide +kernel)
  have hblocks : ∀ t ∈ varied.blocks, t.2.2.Fits ∧ t.2.2.Regular := by decide +kernel
  have hget : ∀ i j K, varied.get? i j = some K → K.Fits ∧ K.Regular := fun i j K hK =>
    hblocks (i, j, K) (mem_blocks.mpr hK)
  obtain ⟨⟨I, C, hI, hC, hleft, -, hrows, hcols⟩, J, D, hJ, hD, hright, -, hrows', hcols'⟩ :=
    hreachable.identities (ε := Unit) (not_rowDisagrees_of_transpose hT) (fun i j K hK => (hget i j K hK).1)
      (fun i j K hK => (hget i j K hK).2) gapped_one_mul
  have hrowCount : varied.rowCount = .ok 9 := by decide +kernel
  have hcolCount : varied.colCount = .ok 6 := by decide +kernel
  exact ⟨⟨I, C, hI, hC, hleft, hrows.trans hrowCount, hcols.trans hrowCount⟩,
    J, D, hJ, hD, hright, hrows'.trans hcolCount, hcols'.trans hcolCount⟩

end Witness

end BlockMatrix

end BlockElimination
