import BlockElimination.BlockMatrix.Arithmetic
import BlockElimination.Proofs.Keyed
import BlockElimination.Proofs.LinearMap.Arithmetic

/-!
# The blocks of a block matrix

With a dimension for every row name and every column name, a block matrix is a family of matrices that is zero where it
has no block. Everything is collected by insertion, so a result is described once for all: what was there plus the sum
of the inserted blocks, place by place.
-/
namespace BlockElimination.BlockMatrix

open Matrix

section Places
variable {F : Type} {A : BlockMatrix F}

theorem contains_iff {i j : String} : A.contains i j ↔ ∃ K, A.get? i j = some K := Option.isSome_iff_exists

theorem get?_eq_none {i j : String} (h : ¬A.contains i j) : A.get? i j = none := by
  rwa [contains, Option.not_isSome_iff_eq_none] at h

theorem mem_colKeys {j : String} : j ∈ A.colKeys ↔ ∃ column, A.column? j = some column :=
  Keyed.mem_keys.trans Keyed.contains_iff

theorem get?_eq_some {i j : String} {K : LinearMap F} :
    A.get? i j = some K ↔ ∃ column, A.column? j = some column ∧ column.get? i = some K :=
  Option.bind_eq_some_iff

theorem mem_colKeys_of_contains {i j : String} (h : A.contains i j) : j ∈ A.colKeys := by
  obtain ⟨K, hK⟩ := contains_iff.mp h
  obtain ⟨column, hc, -⟩ := get?_eq_some.mp hK
  exact mem_colKeys.mpr ⟨column, hc⟩

theorem mem_blocks {i j : String} {K : LinearMap F} : (i, j, K) ∈ A.blocks ↔ A.get? i j = some K := by
  simp only [blocks, List.mem_flatMap, List.mem_map, Prod.exists, get?_eq_some, column?, ← Keyed.mem_entries_iff]
  constructor
  · rintro ⟨c, column, hc, r, L, hL, heq⟩
    obtain ⟨rfl, rfl, rfl⟩ := by simpa using heq
    exact ⟨column, hc, hL⟩
  · rintro ⟨column, hc, hK⟩
    exact ⟨j, column, hc, i, K, hK, rfl⟩

theorem nodup_places (A : BlockMatrix F) : (A.blocks.map fun t => (t.1, t.2.1)).Nodup := by
  rw [blocks, List.map_flatMap]
  refine List.pairwise_flatMap.mpr ⟨fun p _ => ?_, A.columns.sorted.imp fun hlt => ?_⟩
  · have := p.2.nodup_keys.map (f := fun row => (row, p.1)) fun _ _ e => congrArg Prod.fst e
    rw [Keyed.keys, List.map_map] at this
    rw [List.map_map]
    exact this
  · simp only [List.mem_map]
    rintro _ ⟨_, ⟨p, -, rfl⟩, rfl⟩ _ ⟨_, ⟨q, -, rfl⟩, rfl⟩ e
    simp only [Prod.mk.injEq] at e
    exact String.lt_irrefl _ (e.2 ▸ hlt)

theorem sum_blocks {M : Type*} [AddCommMonoid M] (f : LinearMap F → M) (i j : String) (A : BlockMatrix F) :
    (A.blocks.map fun t => if (t.1, t.2.1) = (i, j) then f t.2.2 else 0).sum = ((A.get? i j).map f).getD 0 := by
  have hcolumn : ∀ p : String × Keyed (LinearMap F),
      (p.2.entries.map fun q => if (q.1, p.1) = (i, j) then f q.2 else 0).sum =
        if p.1 = j then ((p.2.get? i).map f).getD 0 else 0 := fun p => by
    split
    case isTrue h => simpa [h] using Keyed.sum_entries f i p.2
    case isFalse h => simp [h]
  rw [blocks, sum_map_flatMap]
  simp only [List.map_map, Function.comp_def, hcolumn]
  rw [Keyed.sum_entries (fun column => ((column.get? i).map f).getD 0) j A.columns, get?, column?]
  cases A.columns.get? j <;> rfl

theorem contains_set {row col i j : String} {K : LinearMap F} :
    (A.set row col K).contains i j ↔ (i = row ∧ j = col) ∨ A.contains i j := by
  unfold contains
  rw [get?_set]
  split <;> simp_all

theorem contains_erase {row col i j : String} :
    (A.erase row col).contains i j ↔ ¬(i = row ∧ j = col) ∧ A.contains i j := by
  unfold contains
  rw [get?_erase]
  split <;> simp_all

theorem mem_colKeys_set {row col j : String} {K : LinearMap F} :
    j ∈ (A.set row col K).colKeys ↔ j = col ∨ j ∈ A.colKeys := by
  simp only [mem_colKeys, column?, BlockMatrix.set, Keyed.get?_insert]
  by_cases hj : j = col <;> simp [hj]

/-- A column goes with its last block. -/
theorem mem_colKeys_erase {row col j : String} :
    j ∈ (A.erase row col).colKeys ↔ j ∈ A.colKeys ∧ (j = col → ∃ i, i ≠ row ∧ A.contains i col) := by
  by_cases hj : j = col
  · subst hj
    cases hA : A.column? j with
    | none => simp [mem_colKeys, BlockMatrix.erase, hA]
    | some column =>
      have hcontains : ∀ i, A.contains i j ↔ column.contains i := fun i => by
        rw [contains, get?, hA, Option.bind_some, Keyed.contains]
      simp only [hcontains, ← Keyed.isEmpty_erase_eq_false, mem_colKeys, hA, BlockMatrix.erase]
      cases (column.erase row).isEmpty <;> simp [column?]
  · have hcolumn : (A.erase row col).column? j = A.column? j := by
      unfold BlockMatrix.erase
      split
      · rfl
      · split <;> simp [column?, hj]
    simp [mem_colKeys, hcolumn, hj]

/-- Every column has a block, as insertion makes it and removal leaves it. -/
def Occupied (A : BlockMatrix F) : Prop := ∀ j ∈ A.colKeys, ∃ i, A.contains i j

theorem Occupied.mem_colKeys (h : A.Occupied) {j : String} : j ∈ A.colKeys ↔ ∃ i, A.contains i j :=
  ⟨h j, fun ⟨_, hi⟩ => mem_colKeys_of_contains hi⟩

theorem occupied_empty : (empty : BlockMatrix F).Occupied := fun _ h => nomatch h

theorem Occupied.set (h : A.Occupied) (row col : String) (K : LinearMap F) : (A.set row col K).Occupied := by
  intro j hj
  rcases mem_colKeys_set.mp hj with rfl | hj
  · exact ⟨row, contains_set.mpr (.inl ⟨rfl, rfl⟩)⟩
  · obtain ⟨i, hi⟩ := h j hj
    exact ⟨i, contains_set.mpr (.inr hi)⟩

/-- A column that has a block still has one if it is still there. -/
theorem exists_contains_erase {j : String} (h : j ∈ A.colKeys → ∃ i, A.contains i j) {row col : String}
    (hj : j ∈ (A.erase row col).colKeys) : ∃ i, (A.erase row col).contains i j := by
  obtain ⟨hj, hleft⟩ := mem_colKeys_erase.mp hj
  by_cases hjc : j = col
  · obtain ⟨i, hne, hi⟩ := hleft hjc
    subst hjc
    exact ⟨i, contains_erase.mpr ⟨fun e => hne e.1, hi⟩⟩
  · obtain ⟨i, hi⟩ := h hj
    exact ⟨i, contains_erase.mpr ⟨fun e => hjc e.2, hi⟩⟩

theorem Occupied.erase (h : A.Occupied) (row col : String) : (A.erase row col).Occupied := fun j hj =>
  exists_contains_erase (h j) hj

variable {m n : String → ℕ}

/-- The blocks of row `i` have `m i` rows and those of column `j` have `n j` columns. -/
def Consistent (A : BlockMatrix F) (m n : String → ℕ) : Prop :=
  ∀ i j K, A.get? i j = some K → K.Sized (m i) (n j)

theorem Consistent.empty (m n : String → ℕ) : (empty : BlockMatrix F).Consistent m n := fun _ _ _ h => nomatch h

theorem Consistent.set (h : A.Consistent m n) {row col : String} {K : LinearMap F} (hK : K.Sized (m row) (n col)) :
    (A.set row col K).Consistent m n := by
  intro i j L hL
  rw [get?_set] at hL
  split at hL
  case isTrue hplace =>
    obtain ⟨rfl, rfl⟩ := hplace
    obtain rfl := Option.some.inj hL
    exact hK
  case isFalse => exact h i j L hL

section Insertion
variable [Arith F] {row col : String} {K : LinearMap F}

omit [Arith F] in
theorem get?_of_first? {p : String × LinearMap F} (h : ((A.column? col).getD ∅).first? = some p) :
    A.get? p.1 col = some p.2 := by
  cases hc : A.column? col with
  | none => simp [hc, Keyed.first?] at h
  | some column =>
    rw [hc, Option.getD_some] at h
    exact get?_eq_some.mpr ⟨column, hc, Keyed.get?_first h⟩

omit [Arith F] in
/-- No count is computed for a column without blocks. -/
theorem checkColumn_eq_ok_iff {column : Keyed (LinearMap F)} :
    checkColumn column col K = .ok () ↔
      ∀ p, column.first? = some p → p.2.Fits ∧ K.Fits ∧ p.2.cols = K.cols := by
  unfold checkColumn LinearMap.colCount LinearMap.size
  cases column.first? with
  | none => simp
  | some p =>
    by_cases hp : p.2.Fits <;> by_cases hK : K.Fits <;> by_cases hcols : p.2.cols = K.cols <;>
      simp [hp, hK, hcols, bind, Except.bind, pure, Except.pure, Functor.map, Except.map]

omit [Arith F] in
/-- The first block of a column stands for all of them. -/
theorem yields_checkColumn (hcols : ∀ i L, A.get? i col = some L → L.cols = K.cols) :
    Yields (checkColumn ((A.column? col).getD ∅) col K) fun _ => True := by
  unfold checkColumn
  split
  case h_1 => simp
  case h_2 r L hfirst =>
    refine (LinearMap.yields_colCount ⟨rfl, hcols r L (get?_of_first? hfirst)⟩).bind ?_
    rintro _ rfl
    refine (LinearMap.yields_colCount ⟨rfl, rfl⟩).bind ?_
    rintro _ rfl
    simp

/-- Which values an insertion has. -/
theorem insertOrAdd_cases (hcols : ∀ i L, A.get? i col = some L → L.cols = K.cols) {p : BlockMatrix F → Prop}
    (fresh : ¬A.contains row col → p (A.set row col K))
    (added : ∀ a, A.get? row col = some a → Yields (a.add K) fun L => p (A.set row col L)) :
    Yields (A.insertOrAdd row col K) p := by
  refine (yields_checkColumn hcols).bind fun _ _ => ?_
  cases hA : A.get? row col with
  | some a => exact (added a hA).bind fun L hL => Yields.pure_iff.mpr hL
  | none => exact Yields.pure_iff.mpr (fresh (by simp [contains, hA]))

variable (h : A.Consistent m n) (hK : K.Sized (m row) (n col))
include h

include hK in
theorem Consistent.insertOrAdd_cases {p : BlockMatrix F → Prop} (fresh : ¬A.contains row col → p (A.set row col K))
    (added : ∀ a, A.get? row col = some a → Yields (a.add K) fun L => p (A.set row col L)) :
    Yields (A.insertOrAdd row col K) p :=
  BlockMatrix.insertOrAdd_cases (fun i L hL => (h i col L hL).2.trans hK.2.symm) fresh added

include hK in
theorem Consistent.yields_insertOrAdd : Yields (A.insertOrAdd row col K) (·.Consistent m n) := by
  apply h.insertOrAdd_cases hK
  · exact fun _ => h.set hK
  · exact fun a ha => ((h row col a ha).yields_add hK).mono fun L hL => h.set hL

theorem Consistent.yields_insertAll {items : List (String × String × LinearMap F)}
    (hitems : ∀ t ∈ items, t.2.2.Sized (m t.1) (n t.2.1)) : Yields (A.insertAll items) (·.Consistent m n) :=
  Yields.foldlM (fun _ (B : BlockMatrix F) => B.Consistent m n) h fun _ t ht _ hB => hB.yields_insertOrAdd (hitems t ht)

end Insertion

/-- The blocks have the sizes of their places, and every column has a block. -/
structure Conforms (A : BlockMatrix F) (m n : String → ℕ) : Prop where
  sized : ∀ {i j K}, A.get? i j = some K → K.Sized (m i) (n j)
  occupied : A.Occupied

theorem Conforms.consistent (h : A.Conforms m n) : A.Consistent m n := fun _ _ _ hK => h.sized hK

theorem Conforms.empty (m n : String → ℕ) : (empty : BlockMatrix F).Conforms m n where
  sized h := nomatch h
  occupied := occupied_empty

theorem Conforms.set (h : A.Conforms m n) {row col : String} {K : LinearMap F} (hK : K.Sized (m row) (n col)) :
    (A.set row col K).Conforms m n where
  sized hL := h.consistent.set hK _ _ _ hL
  occupied := h.occupied.set row col K

theorem Conforms.erase (h : A.Conforms m n) (row col : String) : (A.erase row col).Conforms m n := by
  refine ⟨fun {i j L} hL => ?_, h.occupied.erase row col⟩
  rw [get?_erase] at hL
  split at hL
  · cases hL
  · exact h.sized hL

theorem Conforms.yields_insertAll_fresh [Arith F] {items : List (String × String × LinearMap F)} (h : A.Conforms m n)
    (hsized : ∀ t ∈ items, t.2.2.Sized (m t.1) (n t.2.1)) (hnodup : (items.map fun t => (t.1, t.2.1)).Nodup)
    (hfresh : ∀ t ∈ items, ¬A.contains t.1 t.2.1) :
    Yields (A.insertAll items) fun B => B.Conforms m n ∧
      ∀ i j K, B.get? i j = some K ↔ A.get? i j = some K ∨ (i, j, K) ∈ items := by
  induction items generalizing A with
  | nil => exact Yields.pure_iff.mpr ⟨h, by simp⟩
  | cons t items ih =>
    obtain ⟨row, col, K⟩ := t
    obtain ⟨hnew, hnodup⟩ := List.nodup_cons.mp hnodup
    have hK : K.Sized (m row) (n col) := hsized _ List.mem_cons_self
    have hnone : ¬A.contains row col := hfresh _ List.mem_cons_self
    have hinsert : Yields (A.insertOrAdd row col K) (· = A.set row col K) :=
      h.consistent.insertOrAdd_cases hK (fun _ => rfl) fun a ha => absurd (contains_iff.mpr ⟨a, ha⟩) hnone
    rw [insertAll, List.foldlM_cons]
    refine hinsert.bind ?_
    rintro _ rfl
    have hrest : ∀ t ∈ items, ¬(A.set row col K).contains t.1 t.2.1 := fun t ht hc => by
      rcases contains_set.mp hc with hplace | hc
      · exact hnew (List.mem_map.mpr ⟨t, ht, Prod.ext hplace.1 hplace.2⟩)
      · exact hfresh t (List.mem_cons_of_mem _ ht) hc
    refine (ih (h.set hK) (fun t ht => hsized t (List.mem_cons_of_mem _ ht)) hnodup hrest).mono ?_
    rintro B ⟨hB, hget⟩
    refine ⟨hB, fun i j L => ?_⟩
    rw [hget, get?_set, List.mem_cons]
    by_cases hplace : i = row ∧ j = col
    · obtain ⟨rfl, rfl⟩ := hplace
      rw [if_pos ⟨rfl, rfl⟩, get?_eq_none hnone]
      simp [eq_comm]
    · rw [if_neg hplace]
      simp only [Prod.mk.injEq]
      tauto

end Places

section Blocks
variable {F : Type} [CommRing F] [DecidableEq F] {A : BlockMatrix F} {m n : String → ℕ}

/-- The matrix at a place, which is zero if there is no block. -/
def block (A : BlockMatrix F) (m n : String → ℕ) (i j : String) : Matrix (Fin (m i)) (Fin (n j)) F :=
  ((A.get? i j).map fun K => K.matrix (m i) (n j)).getD 0

theorem block_of_get? {i j : String} {K : LinearMap F} (h : A.get? i j = some K) :
    A.block m n i j = K.matrix (m i) (n j) := by
  rw [block, h]
  rfl

theorem block_of_not_contains {i j : String} (h : ¬A.contains i j) : A.block m n i j = 0 := by
  rw [block, get?_eq_none h]
  rfl

theorem contains_of_block_ne_zero {i j : String} (h : A.block m n i j ≠ 0) : A.contains i j := by
  by_contra hnot
  exact h (block_of_not_contains hnot)

theorem sum_block {M : Type*} [AddCommMonoid M] {i j : String} {g : Matrix (Fin (m i)) (Fin (n j)) F → M}
    (hg : g 0 = 0) :
    (A.blocks.map fun t => if (t.1, t.2.1) = (i, j) then g (t.2.2.matrix (m i) (n j)) else 0).sum =
      g (A.block m n i j) := by
  rw [sum_blocks fun K => g (K.matrix (m i) (n j)), block]
  cases A.get? i j with
  | none => exact hg.symm
  | some K => rfl

theorem block_set {row col i j : String} {K : LinearMap F} :
    (A.set row col K).block m n i j = if i = row ∧ j = col then K.matrix (m i) (n j) else A.block m n i j := by
  rw [block, get?_set]
  split <;> rfl

theorem Conforms.yields_insertOrAdd (h : A.Conforms m n) {row col : String} {K : LinearMap F}
    (hK : K.Sized (m row) (n col)) : Yields (A.insertOrAdd row col K) fun B => ∃ L : LinearMap F,
      B = A.set row col L ∧ L.Sized (m row) (n col) ∧
      L.matrix (m row) (n col) = A.block m n row col + K.matrix (m row) (n col) ∧
      (A.contains row col → L.kind ≠ .kron) := by
  apply h.consistent.insertOrAdd_cases hK
  · intro hnot
    exact ⟨K, rfl, hK, by rw [block_of_not_contains hnot, zero_add], fun hc => absurd hc hnot⟩
  · intro a ha
    refine (LinearMap.yields_add (h.sized ha) hK).mono fun L hL => ⟨L, rfl, hL.1, ?_, fun _ => ?_⟩
    · rw [hL.2.1, block_of_get? ha]
    · exact hL.2.2 ▸ LinearMap.ofSum_ne_kron _ _

/-- `B` is `A` with the matrix `value t` added at the place of every item `t`. A Kronecker block that was there before
is as it was, since a sum has another kind. -/
structure Gathers {α : Type} (m n : String → ℕ) (place : α → String × String)
    (value : α → ∀ i j, Matrix (Fin (m i)) (Fin (n j)) F) (A : BlockMatrix F) (items : List α) (B : BlockMatrix F) :
    Prop where
  conforms : B.Conforms m n
  contains_iff : ∀ i j, B.contains i j ↔ A.contains i j ∨ ∃ t ∈ items, place t = (i, j)
  block_eq : ∀ i j, B.block m n i j =
    A.block m n i j + (items.map fun t => if place t = (i, j) then value t i j else 0).sum
  kept : ∀ {i j K}, B.get? i j = some K → K.kind = .kron → A.contains i j →
    A.get? i j = some K ∧ ∀ t ∈ items, place t ≠ (i, j)

theorem Gathers.nil {α : Type} {place : α → String × String} {value : α → ∀ i j, Matrix (Fin (m i)) (Fin (n j)) F}
    (h : A.Conforms m n) : Gathers m n place value A [] A := by
  constructor
  · exact h
  · simp
  · simp
  · exact fun hK _ _ => ⟨hK, fun _ ht => nomatch ht⟩

theorem Gathers.yields_insertOrAdd {α : Type} {place : α → String × String}
    {value : α → ∀ i j, Matrix (Fin (m i)) (Fin (n j)) F} {B : BlockMatrix F} {done : List α}
    (h : Gathers m n place value A done B) {t : α} {row col : String} (ht : place t = (row, col)) {K : LinearMap F}
    (hK : K.Sized (m row) (n col)) (hv : K.matrix (m row) (n col) = value t row col) :
    Yields (B.insertOrAdd row col K) (Gathers m n place value A (done ++ [t])) := by
  refine (h.conforms.yields_insertOrAdd hK).mono ?_
  rintro _ ⟨L, rfl, hL, hLe, hkind⟩
  constructor
  · exact h.conforms.set hL
  · intro i j
    rw [contains_set, h.contains_iff]
    simp only [List.mem_append, List.mem_singleton, or_and_right, exists_or, exists_eq_left, ht, Prod.mk.injEq]
    grind
  · intro i j
    rw [block_set, List.map_append, List.sum_append, List.map_singleton, List.sum_singleton, ht, ← add_assoc,
      ← h.block_eq]
    by_cases hplace : i = row ∧ j = col
    · obtain ⟨rfl, rfl⟩ := hplace
      rw [if_pos ⟨rfl, rfl⟩, if_pos rfl, hLe, hv]
    · rw [if_neg hplace, if_neg fun e => hplace ⟨(congrArg Prod.fst e).symm, (congrArg Prod.snd e).symm⟩, add_zero]
  · intro i j K' hK' hkron hA
    rw [get?_set] at hK'
    split at hK'
    case isTrue hplace =>
      obtain ⟨rfl, rfl⟩ := hplace
      obtain rfl := Option.some.inj hK'
      exact absurd hkron (hkind ((h.contains_iff i j).mpr (.inl hA)))
    case isFalse hplace =>
      obtain ⟨hAK, hdone⟩ := h.kept hK' hkron hA
      refine ⟨hAK, fun u hu => ?_⟩
      rcases List.mem_append.mp hu with hu | hu
      · exact hdone u hu
      · rw [List.mem_singleton.mp hu, ht]
        exact fun e => hplace ⟨(congrArg Prod.fst e).symm, (congrArg Prod.snd e).symm⟩

abbrev GathersBlocks (m n : String → ℕ) (A : BlockMatrix F) (items : List (String × String × LinearMap F))
    (B : BlockMatrix F) : Prop :=
  Gathers m n (fun t => (t.1, t.2.1)) (fun t i j => t.2.2.matrix (m i) (n j)) A items B

theorem yields_insertAll (h : A.Conforms m n) {items : List (String × String × LinearMap F)}
    (hitems : ∀ t ∈ items, t.2.2.Sized (m t.1) (n t.2.1)) : Yields (A.insertAll items) (GathersBlocks m n A items) :=
  Yields.foldlM (GathersBlocks m n A) (.nil h) fun _ t ht _ hB => hB.yields_insertOrAdd rfl (hitems t ht) rfl

end Blocks

end BlockElimination.BlockMatrix
