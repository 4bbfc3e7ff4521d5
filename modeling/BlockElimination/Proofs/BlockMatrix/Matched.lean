import BlockElimination.BlockMatrix.Inverse
import BlockElimination.Proofs.BlockMatrix.Blocks
import BlockElimination.Proofs.LinearMap.Symmetric

/-!
# Inverses of matched blocks

A block matrix that is inverted block by block matches each row name with one column name. Once its dimensions are known
every block fits, and the inverses come into columns of their own. So the only answers left are those of the blocks, and
the first block without an inverse decides.
-/
namespace BlockElimination

theorem mapM_eq_some_iff {α β : Type} {f : α → Option β} {g : α → β} (hg : ∀ a b, f a = some b → g a = b) {l : List α}
    {r : List β} : l.mapM f = some r ↔ (∀ a ∈ l, f a = some (g a)) ∧ l.map g = r := by
  induction l generalizing r with
  | nil => simp
  | cons a l ih =>
    rw [List.mapM_cons]
    cases ha : f a with
    | none => simp [ha]
    | some b =>
      obtain rfl := hg a b ha
      cases hl : l.mapM f with
      | none =>
        have hnone : ¬∀ x ∈ l, f x = some (g x) := fun h => by
          rw [ih.mpr ⟨h, rfl⟩] at hl
          cases hl
        simp [ha, hnone]
      | some s =>
        obtain ⟨h, rfl⟩ := ih.mp hl
        simpa [ha] using fun _ => h

namespace BlockMatrix

variable {F : Type} {A B : BlockMatrix F} {i j : String} {K : LinearMap F}

/-- No row and no column has two blocks. -/
structure Matched (A : BlockMatrix F) : Prop where
  row_eq : ∀ {i i' j : String}, A.contains i j → A.contains i' j → i = i'
  col_eq : ∀ {i j j' : String}, A.contains i j → A.contains i j' → j = j'

theorem not_matched_iff : ¬A.Matched ↔ (∃ i i' j, i ≠ i' ∧ A.contains i j ∧ A.contains i' j) ∨
    ∃ i j j', j ≠ j' ∧ A.contains i j ∧ A.contains i j' := by
  constructor
  · intro h
    by_contra hnone
    push Not at hnone
    refine h ⟨fun {i i' j} hi hi' => ?_, fun {i j j'} hj hj' => ?_⟩
    · by_contra hne
      exact hnone.1 i i' j hne hi hi'
    · by_contra hne
      exact hnone.2 i j j' hne hj hj'
  · rintro (⟨i, i', j, hne, hi, hi'⟩ | ⟨i, j, j', hne, hj, hj'⟩) h
    · exact hne (h.row_eq hi hi')
    · exact hne (h.col_eq hj hj')

theorem mem_keys_iff_contains {p : String × Keyed (LinearMap F)} (hp : p ∈ A.columns.entries) :
    i ∈ p.2.keys ↔ A.contains i p.1 := by
  have hcolumn : A.column? p.1 = some p.2 := (Keyed.mem_entries_iff _ _ _).mp hp
  rw [Keyed.mem_keys, contains, get?, hcolumn]
  rfl

/-- The first row name of a column. -/
def firstRow (column : Keyed (LinearMap F)) : String := column.keys.headD ""

theorem isBlockDiagonal_eq_true_iff : A.isBlockDiagonal = true ↔
    (∀ p ∈ A.columns.entries, p.2.keys = [firstRow p.2]) ∧
      ∀ p ∈ A.columns.entries, ∀ q ∈ A.columns.entries, firstRow p.2 = firstRow q.2 → p = q := by
  have honly : ∀ rows, A.onlyRows? = some rows ↔
      (∀ p ∈ A.columns.entries, p.2.keys = [firstRow p.2]) ∧ A.columns.entries.map (fun p => firstRow p.2) = rows := by
    intro rows
    rw [onlyRows?, Keyed.values, mapM_eq_some_iff (g := firstRow), List.forall_mem_map, List.map_map]
    · refine and_congr (forall₂_congr fun p _ => ?_) Iff.rfl
      split <;> simp_all
    · intro column row h
      split at h <;> simp_all [firstRow]
  have hnodup : A.columns.entries.Nodup := List.Nodup.of_map Prod.fst A.columns.nodup_keys
  unfold isBlockDiagonal
  cases hrows : A.onlyRows? with
  | none =>
    refine ⟨fun h => (nomatch h), fun h => ?_⟩
    rw [(honly _).mpr ⟨h.1, rfl⟩] at hrows
    cases hrows
  | some rows =>
    obtain ⟨hone, rfl⟩ := (honly rows).mp hrows
    rw [decide_eq_true_iff, List.nodup_map_iff_inj_on hnodup]
    exact (and_iff_right hone).symm

/-- The test for a block diagonal is right on matrices that have no column without blocks. -/
theorem Occupied.isBlockDiagonal_iff (hA : A.Occupied) : A.isBlockDiagonal = true ↔ A.Matched := by
  have hentry : ∀ {j}, j ∈ A.colKeys → ∃ p ∈ A.columns.entries, p.1 = j := fun hj => List.mem_map.mp hj
  rw [isBlockDiagonal_eq_true_iff]
  constructor
  · rintro ⟨hone, hinj⟩
    have hrow : ∀ {i p}, p ∈ A.columns.entries → A.contains i p.1 → i = firstRow p.2 := fun {i p} hp hc => by
      have hi := (mem_keys_iff_contains hp).mpr hc
      rw [hone p hp] at hi
      exact List.mem_singleton.mp hi
    refine ⟨fun {i i' j} hi hi' => ?_, fun {i j j'} hj hj' => ?_⟩
    · obtain ⟨p, hp, rfl⟩ := hentry (mem_colKeys_of_contains hi)
      exact (hrow hp hi).trans (hrow hp hi').symm
    · obtain ⟨p, hp, rfl⟩ := hentry (mem_colKeys_of_contains hj)
      obtain ⟨q, hq, rfl⟩ := hentry (mem_colKeys_of_contains hj')
      rw [hinj p hp q hq ((hrow hp hj).symm.trans (hrow hq hj'))]
  · intro h
    have hone : ∀ p ∈ A.columns.entries, p.2.keys = [firstRow p.2] := fun p hp => by
      obtain ⟨i, hi⟩ := hA p.1 (List.mem_map.mpr ⟨p, hp, rfl⟩)
      have hmem := (mem_keys_iff_contains hp).mpr hi
      have hall : ∀ k ∈ p.2.keys, ∀ l ∈ p.2.keys, k = l := fun k hk l hl =>
        h.row_eq ((mem_keys_iff_contains hp).mp hk) ((mem_keys_iff_contains hp).mp hl)
      have hnodup := p.2.nodup_keys
      unfold firstRow
      cases hkeys : p.2.keys with
      | nil => simp [hkeys] at hmem
      | cons k rest =>
        cases rest with
        | nil => rfl
        | cons l rest =>
          rw [hkeys] at hall hnodup
          have hkl : k ≠ l := fun e => by simp [e] at hnodup
          exact absurd (hall k (by simp) l (by simp)) hkl
    have hfirst : ∀ p ∈ A.columns.entries, A.contains (firstRow p.2) p.1 := fun p hp => by
      rw [← mem_keys_iff_contains hp, hone p hp]
      exact List.mem_singleton.mpr rfl
    refine ⟨hone, fun p hp q hq e => ?_⟩
    have hkey : p.1 = q.1 := h.col_eq (hfirst p hp) (e ▸ hfirst q hq)
    exact List.inj_on_of_nodup_map A.columns.nodup_keys hp hq hkey

/-- The first block of a column is its only one. -/
theorem Matched.mem_colHeads (h : A.Matched) : (j, K) ∈ A.colHeads ↔ ∃ i, A.get? i j = some K := by
  simp only [colHeads, List.mem_filterMap, Prod.exists, Option.map_eq_some_iff, Prod.mk.injEq]
  constructor
  · rintro ⟨c, column, hmem, i, L, hfirst, rfl, rfl⟩
    exact ⟨i, get?_eq_some.mpr ⟨column, (Keyed.mem_entries_iff _ _ _).mp hmem, Keyed.get?_first hfirst⟩⟩
  · rintro ⟨i, hK⟩
    obtain ⟨column, hcolumn, hrow⟩ := get?_eq_some.mp hK
    have hmem := (Keyed.mem_entries_iff _ _ _).mpr hrow
    obtain ⟨⟨i', L⟩, hfirst⟩ : ∃ p, column.first? = some p := ⟨_, List.head?_eq_some_head (List.ne_nil_of_mem hmem)⟩
    have hL : A.get? i' j = some L := get?_eq_some.mpr ⟨column, hcolumn, Keyed.get?_first hfirst⟩
    obtain rfl : i' = i := h.row_eq (contains_iff.mpr ⟨L, hL⟩) (contains_iff.mpr ⟨K, hK⟩)
    have hLK : L = K := Option.some.inj (hL.symm.trans hK)
    exact ⟨j, column, (Keyed.mem_entries_iff _ _ _).mpr hcolumn, i', L, hfirst, rfl, hLK⟩

/-- The block of a column is the one that its dimension is read off. -/
theorem Matched.fits (h : A.Matched) {n : ℕ} (hn : A.colCount = .ok n) (hK : A.get? i j = some K) : K.Fits := by
  obtain ⟨counts, hcounts, -⟩ := exists_of_bind_eq_ok hn
  have hhead : (j, K) ∈ A.colHeads := h.mem_colHeads.mpr ⟨i, hK⟩
  obtain ⟨c, hc⟩ := exists_of_mapM_eq_ok hcounts _ hhead
  change Prod.snd <$> K.size = _ at hc
  cases hsize : K.size with
  | ok s => exact (LinearMap.size_eq_ok_iff.mp hsize).1
  | error f =>
    rw [hsize] at hc
    cases hc

theorem insertOrAdd_of_not_mem_colKeys [Arith F] (h : j ∉ A.colKeys) (i : String) (K : LinearMap F) :
    A.insertOrAdd i j K = .ok (A.set i j K) := by
  have hcolumn : A.column? j = none := Option.eq_none_iff_forall_ne_some.mpr fun column hc =>
    h (mem_colKeys.mpr ⟨column, hc⟩)
  simp [insertOrAdd, checkColumn, Keyed.first?, get?, hcolumn, bind, Except.bind, pure, Except.pure]

variable [Scalar F] {eps : F}

/-- Why the map has no inverse, if it has none. -/
def failure? (eps : F) (K : LinearMap F) : Option InversionError :=
  match (K.inverse eps).result with
  | .ok _ => none
  | .error (.fault _) => none
  | .error (.error e) => some e

/-- `C` holds the inverses of the items, at their places with rows and columns exchanged. -/
structure InvertsAll (eps : F) (items : List (String × String × LinearMap F)) (C : BlockMatrix F) : Prop where
  occupied : C.Occupied
  inverted : ∀ t ∈ items, ∃ J, (t.2.2.inverse eps).result = .ok J
  get?_eq_some_iff : ∀ i j J, C.get? j i = some J ↔ ∃ K, (i, j, K) ∈ items ∧ (K.inverse eps).result = .ok J

theorem InvertsAll.nil : InvertsAll eps [] (empty : BlockMatrix F) where
  occupied := occupied_empty
  inverted _ ht := nomatch ht
  get?_eq_some_iff := by simp

theorem InvertsAll.failure?_eq_none {items : List (String × String × LinearMap F)} {C : BlockMatrix F}
    (h : InvertsAll eps items C) : items.findSome? (fun t => failure? eps t.2.2) = none := by
  refine List.findSome?_eq_none_iff.mpr fun t ht => ?_
  obtain ⟨J, hJ⟩ := h.inverted t ht
  rw [failure?, hJ]

theorem InvertsAll.set {items : List (String × String × LinearMap F)} {C : BlockMatrix F} {J : LinearMap F}
    (h : InvertsAll eps items C) (hfresh : ∀ K, (i, j, K) ∉ items) (hJ : (K.inverse eps).result = .ok J) :
    InvertsAll eps (items ++ [(i, j, K)]) (C.set j i J) where
  occupied := h.occupied.set j i J
  inverted := List.forall_mem_append.mpr ⟨h.inverted, List.forall_mem_singleton.mpr ⟨J, hJ⟩⟩
  get?_eq_some_iff r c L := by
    rw [get?_set]
    simp only [List.mem_append, List.mem_singleton, Prod.mk.injEq]
    by_cases hplace : c = j ∧ r = i
    · obtain ⟨rfl, rfl⟩ := hplace
      rw [if_pos ⟨rfl, rfl⟩]
      constructor
      · rintro ⟨⟩
        exact ⟨K, .inr ⟨rfl, rfl, rfl⟩, hJ⟩
      · rintro ⟨M, hM | ⟨-, -, rfl⟩, hL⟩
        · exact absurd hM (hfresh M)
        · rw [hJ] at hL
          cases hL
          rfl
    · rw [if_neg hplace, h.get?_eq_some_iff]
      refine exists_congr fun M => and_congr_left fun _ => ⟨.inl, ?_⟩
      rintro (hM | ⟨rfl, rfl, -⟩)
      · exact hM
      · exact absurd ⟨rfl, rfl⟩ hplace

/-- Inverting block by block ends with all inverses or with the first block that has none. -/
theorem Matched.ends_inverses (h : A.Matched) {n : ℕ} (hn : A.colCount = .ok n) :
    (A.blocks.foldlM (fun (C : BlockMatrix F) (row, col, a) => do
        let inv ← (a.inverse eps).mapError (fun _ => []) .linearMap
        C.insertOrAdd col row inv) empty : Outcome BlockError (BlockMatrix F)).Ends (InvertsAll eps A.blocks)
      (fun e => ∃ cause, e = .linearMap cause ∧ A.blocks.findSome? (fun t => failure? eps t.2.2) = some cause)
      fun _ => False := by
  refine Outcome.Ends.foldlM_of_append (InvertsAll eps) .nil ?_
  rintro done ⟨i, j, K⟩ todo hsplit C hC
  have hmem : ∀ {t}, t ∈ done ++ (i, j, K) :: todo → A.get? t.1 t.2.1 = some t.2.2 := fun ht =>
    mem_blocks.mp (hsplit ▸ ht)
  have hK : A.get? i j = some K := hmem (t := (i, j, K)) (by simp)
  have hnodup : ((done ++ (i, j, K) :: todo).map fun t => (t.1, t.2.1)).Nodup := hsplit ▸ A.nodup_places
  have hfresh : ∀ c L, (i, c, L) ∉ done := fun c L hL => by
    have hc := hmem (List.mem_append_left _ hL)
    obtain rfl : c = j := h.col_eq (contains_iff.mpr ⟨L, hc⟩) (contains_iff.mpr ⟨K, hK⟩)
    exact not_mem_map_of_nodup hnodup (List.mem_map.mpr ⟨_, hL, rfl⟩)
  have hcolumn : i ∉ C.colKeys := fun hi => by
    obtain ⟨c, hc⟩ := hC.occupied i hi
    obtain ⟨J, hJ⟩ := contains_iff.mp hc
    obtain ⟨L, hL, -⟩ := (hC.get?_eq_some_iff i c J).mp hJ
    exact hfresh c L hL
  refine Outcome.Ends.bind (Outcome.Ends.mapError ((h.fits hn hK).ends_inverse eps).result_eq fun e he => ?_) ?_
  · refine ⟨e, rfl, ?_⟩
    rw [hsplit, List.findSome?_append, hC.failure?_eq_none, List.findSome?_cons, failure?, he]
    rfl
  · intro J hJ
    rw [insertOrAdd_of_not_mem_colKeys hcolumn]
    exact hC.set (hfresh j) hJ

/-- Which of the answers an inversion gives. It never ends in a fault once both dimensions are known. -/
theorem Occupied.ends_inverse (hA : A.Occupied) {m n : ℕ} (hm : A.rowCount = .ok m) (hn : A.colCount = .ok n)
    (eps : F) : (A.inverse eps).Ends (fun C => m = n ∧ A.Matched ∧ InvertsAll eps A.blocks C)
      (fun e => m ≠ n ∧ e = .notSquare m n ∨ m = n ∧ ¬A.Matched ∧ e = .notBlockDiagonal ∨
        m = n ∧ A.Matched ∧
          ∃ cause, e = .linearMap cause ∧ A.blocks.findSome? (fun t => failure? eps t.2.2) = some cause)
      fun _ => False := by
  unfold inverse
  rw [hm, hn]
  refine Outcome.Ends.bind (p := (· = m)) rfl ?_
  rintro _ rfl
  refine Outcome.Ends.bind (p := (· = n)) rfl ?_
  rintro _ rfl
  split
  case isTrue hne => exact Outcome.Ends.report_bind (.inl ⟨hne, rfl⟩)
  case isFalse heq =>
    rw [not_not] at heq
    split
    case isTrue hdiag =>
      have h := hA.isBlockDiagonal_iff.mp hdiag
      exact (h.ends_inverses hn).mono (fun C hC => ⟨heq, h, hC⟩) (fun e he => .inr (.inr ⟨heq, h, he⟩)) fun _ hf => hf
    case isFalse hdiag =>
      exact Outcome.Ends.report_bind (.inr (.inl ⟨heq, mt hA.isBlockDiagonal_iff.mpr hdiag, rfl⟩))

end BlockMatrix

end BlockElimination
