import BlockElimination.Proofs.Mirrors
import BlockElimination.Proofs.BlockMatrix.Blocks
import BlockElimination.Proofs.LinearMap.Sums

/-!
# Matrices that look alike

The kind and the size of a block are what an insertion checks, and they settle the kind and the size of a sum. So two
matrices with blocks of the same looks at the same places go through the same insertions. What is known of the two
blocks at a place stays known, if it passes from summands to sums.
-/
namespace BlockElimination

namespace LinearMap

variable {F : Type} {K K' : LinearMap F}

/-- What is known of a map without its entries: its kind, its rows and its columns. -/
def look (K : LinearMap F) : Kind × ℕ × ℕ := (K.kind, K.rows, K.cols)

theorem look_eq_iff : K'.look = K.look ↔ K'.kind = K.kind ∧ K'.rows = K.rows ∧ K'.cols = K.cols := by
  simp [look]

variable [Arith F]

theorem look_scale (h : K'.look = K.look) (alpha : F) : (K'.scale alpha).look = (K.scale alpha).look := by
  obtain ⟨hkind, hrows, hcols⟩ := look_eq_iff.mp h
  simp only [look, kind_scale, rows_scale, cols_scale, hkind, hrows, hcols]

/-- The look of a sum is a question of the looks of the summands. -/
theorem mirrors_add {L L' : LinearMap F} (h : K'.look = K.look) (h' : L'.look = L.look) :
    Mirrors (K.add L) (K'.add L') fun P P' => P'.look = P.look := by
  obtain ⟨hkind, hrows, hcols⟩ := look_eq_iff.mp h
  obtain ⟨hkind', hrows', hcols'⟩ := look_eq_iff.mp h'
  intro P hP
  obtain ⟨hL, hsized⟩ := ensures_add K L P hP
  have hK' : K'.Sized K.rows K.cols := ⟨hrows, hcols⟩
  have hL' : L'.Sized K.rows K.cols := ⟨hrows'.trans hL.1, hcols'.trans hL.2⟩
  have hkinds : Ensures (K'.add L') (·.kind = K'.kind.ofSum L'.kind) := fun _ hP' =>
    (hK'.yields_kind_add hL').of_eq_ok hP'
  refine ((hK'.yields_add hL').and hkinds).mono ?_
  rintro P' ⟨hsized', hsum⟩
  refine look_eq_iff.mpr ⟨?_, hsized'.1.trans hsized.1.symm, hsized'.2.trans hsized.2.symm⟩
  rw [hsum, hkind, hkind', (Sized.yields_kind_add ⟨rfl, rfl⟩ hL).of_eq_ok hP]

end LinearMap

namespace BlockMatrix

variable {F α : Type} {A A' : BlockMatrix F} {R : String → String → LinearMap F → LinearMap F → Prop}
  {i j row col key : String} {K K' : LinearMap F}

/-- The columns with `f` of every block. -/
def mapBlocks (f : LinearMap F → α) (A : BlockMatrix F) : Keyed (Keyed α) := A.columns.map (Keyed.map f)

theorem get?_mapBlocks (f : LinearMap F → α) (A : BlockMatrix F) (j : String) :
    (A.mapBlocks f).get? j = (A.column? j).map (Keyed.map f) :=
  Keyed.get?_map _ _ _

theorem mapBlocks_set (f : LinearMap F → α) (A : BlockMatrix F) (row col : String) (K : LinearMap F) :
    (A.set row col K).mapBlocks f =
      (A.mapBlocks f).insert col ((((A.mapBlocks f).get? col).getD ∅).insert row (f K)) := by
  have hcolumn : (((A.mapBlocks f).get? col).getD ∅) = ((A.column? col).getD ∅).map f := by
    rw [get?_mapBlocks]
    cases A.column? col <;> rfl
  rw [hcolumn, ← Keyed.map_insert]
  exact Keyed.map_insert _ _ _ _

theorem mapBlocks_erase (f : LinearMap F → α) (A : BlockMatrix F) (row col : String) :
    (A.erase row col).mapBlocks f = match (A.mapBlocks f).get? col with
      | none => A.mapBlocks f
      | some column =>
        if (column.erase row).isEmpty then (A.mapBlocks f).erase col
        else (A.mapBlocks f).insert col (column.erase row) := by
  rw [get?_mapBlocks]
  unfold BlockMatrix.erase
  cases A.column? col with
  | none => rfl
  | some column =>
    simp only [Option.map_some, ← Keyed.map_erase, Keyed.isEmpty_map]
    split
    · exact Keyed.map_erase _ _ _
    · exact Keyed.map_insert _ _ _ _

/-- The columns, the places of the blocks and what the blocks look like. -/
def looks (A : BlockMatrix F) : Keyed (Keyed (Kind × ℕ × ℕ)) := A.mapBlocks LinearMap.look

/-- The matrices look alike, and `R` holds of the two blocks at each place. -/
structure Agrees (R : String → String → LinearMap F → LinearMap F → Prop) (A A' : BlockMatrix F) : Prop where
  looks_eq : A'.looks = A.looks
  related : ∀ {i j K K'}, A.get? i j = some K → A'.get? i j = some K' → R i j K K'

namespace Agrees

theorem empty : Agrees R (.empty : BlockMatrix F) .empty := ⟨rfl, fun h => nomatch h⟩

/-- Where no column is without blocks, the blocks tell the columns. -/
theorem of_get? (hA : A.Occupied) (hA' : A'.Occupied)
    (hlook : ∀ i j, (A'.get? i j).map LinearMap.look = (A.get? i j).map LinearMap.look)
    (hrelated : ∀ i j K K', A.get? i j = some K → A'.get? i j = some K' → R i j K K') : Agrees R A A' where
  looks_eq := by
    have hcontains : ∀ i j, A'.contains i j ↔ A.contains i j := fun i j => by
      rw [contains, contains, ← Option.isSome_map, hlook, Option.isSome_map]
    have hkeys : ∀ j, j ∈ A'.colKeys ↔ j ∈ A.colKeys := fun j => by
      simp only [hA.mem_colKeys, hA'.mem_colKeys, hcontains]
    refine Keyed.ext_get? fun j => ?_
    rw [looks, looks, get?_mapBlocks, get?_mapBlocks]
    have hcolumn := hkeys j
    have hblocks : ∀ i, ((A'.column? j).bind fun c => c.get? i).map LinearMap.look =
        ((A.column? j).bind fun c => c.get? i).map LinearMap.look := fun i => hlook i j
    simp only [mem_colKeys] at hcolumn
    cases hc : A.column? j with
    | none =>
      have hc' : A'.column? j = none := by
        by_contra hsome
        obtain ⟨column, hcol⟩ := hcolumn.mp (Option.ne_none_iff_exists'.mp hsome)
        cases hc.symm.trans hcol
      rw [hc']
    | some column =>
      obtain ⟨column', hc'⟩ := hcolumn.mpr ⟨column, hc⟩
      simp only [hc, hc', Option.bind_some] at hblocks
      rw [hc', Option.map_some, Option.map_some, Option.some.injEq]
      exact Keyed.ext_get? fun i => by rw [Keyed.get?_map, Keyed.get?_map, hblocks]
  related := hrelated _ _ _ _

theorem mono {S : String → String → LinearMap F → LinearMap F → Prop} (h : Agrees R A A')
    (hS : ∀ {i j K K'}, A.get? i j = some K → A'.get? i j = some K' → R i j K K' → S i j K K') : Agrees S A A' :=
  ⟨h.looks_eq, fun hK hK' => hS hK hK' (h.related hK hK')⟩

theorem map_look_column? (h : Agrees R A A') (j : String) :
    (A'.column? j).map (Keyed.map LinearMap.look) = (A.column? j).map (Keyed.map LinearMap.look) := by
  rw [← get?_mapBlocks, ← get?_mapBlocks]
  exact congrArg (Keyed.get? · j) h.looks_eq

theorem map_look_get? (h : Agrees R A A') (i j : String) :
    (A'.get? i j).map LinearMap.look = (A.get? i j).map LinearMap.look := by
  have hcolumn := congrArg (fun column => column.bind fun c => c.get? i) (h.map_look_column? j)
  simp only [Option.bind_map, Function.comp_def, Keyed.get?_map] at hcolumn
  rwa [get?, get?, Option.map_bind, Option.map_bind]

theorem exists_get? (h : Agrees R A A') (hK : A.get? i j = some K) :
    ∃ K', A'.get? i j = some K' ∧ K'.look = K.look ∧ R i j K K' := by
  have hlook := h.map_look_get? i j
  rw [hK, Option.map_some, Option.map_eq_some_iff] at hlook
  obtain ⟨K', hK', hlook⟩ := hlook
  exact ⟨K', hK', hlook, h.related hK hK'⟩

theorem exists_get?_left (h : Agrees R A A') (hK' : A'.get? i j = some K') : ∃ K, A.get? i j = some K ∧ R i j K K' := by
  have hlook := h.map_look_get? i j
  rw [hK', Option.map_some, eq_comm, Option.map_eq_some_iff] at hlook
  obtain ⟨K, hK, -⟩ := hlook
  exact ⟨K, hK, h.related hK hK'⟩

theorem get?_eq_none (h : Agrees R A A') (hK : A.get? i j = none) : A'.get? i j = none := by
  have hlook := h.map_look_get? i j
  rwa [hK, Option.map_none, Option.map_eq_none_iff] at hlook

theorem contains_iff (h : Agrees R A A') (i j : String) : A'.contains i j ↔ A.contains i j := by
  have hlook := congrArg Option.isSome (h.map_look_get? i j)
  rw [Option.isSome_map, Option.isSome_map] at hlook
  rw [contains, contains, hlook]

theorem colKeys_eq (h : Agrees R A A') : A'.colKeys = A.colKeys := by
  have hkeys := congrArg Keyed.keys h.looks_eq
  rwa [looks, looks, mapBlocks, mapBlocks, Keyed.keys_map, Keyed.keys_map] at hkeys

theorem set (h : Agrees R A A') (hlook : K'.look = K.look) (hK : R row col K K') :
    Agrees R (A.set row col K) (A'.set row col K') where
  looks_eq := by
    simp only [looks, mapBlocks_set]
    rw [hlook, show A'.mapBlocks LinearMap.look = A.mapBlocks LinearMap.look from h.looks_eq]
  related {i j L L'} hL hL' := by
    rw [get?_set] at hL hL'
    split at hL
    case isTrue hplace =>
      obtain ⟨rfl, rfl⟩ := hplace
      rw [if_pos ⟨rfl, rfl⟩] at hL'
      exact Option.some.inj hL ▸ Option.some.inj hL' ▸ hK
    case isFalse hplace =>
      rw [if_neg hplace] at hL'
      exact h.related hL hL'

theorem erase (h : Agrees R A A') (row col : String) : Agrees R (A.erase row col) (A'.erase row col) where
  looks_eq := by
    simp only [looks, mapBlocks_erase]
    rw [show A'.mapBlocks LinearMap.look = A.mapBlocks LinearMap.look from h.looks_eq]
  related {i j L L'} hL hL' := by
    rw [get?_erase] at hL hL'
    split at hL
    case isTrue => cases hL
    case isFalse hplace =>
      rw [if_neg hplace] at hL'
      exact h.related hL hL'

/-- The blocks of a column, side by side. -/
theorem forall₂_column (h : Agrees R A A') (key : String) :
    List.Forall₂ (fun p p' => p'.1 = p.1 ∧ p'.2.look = p.2.look ∧ R p.1 key p.2 p'.2)
      ((A.column? key).getD ∅).entries ((A'.column? key).getD ∅).entries := by
  have hentries : ∀ B : BlockMatrix F, ((B.column? key).getD ∅).entries.map (fun p => (p.1, p.2.look)) =
      (((B.column? key).map (Keyed.map LinearMap.look)).getD ∅).entries := fun B => by
    cases B.column? key <;> rfl
  have hget : ∀ {B : BlockMatrix F} {p}, p ∈ ((B.column? key).getD ∅).entries → B.get? p.1 key = some p.2 := by
    intro B p hp
    cases hc : B.column? key with
    | none => simp [hc] at hp
    | some column => exact get?_eq_some.mpr ⟨column, hc, (Keyed.mem_entries_iff _ _ _).mp (by simpa [hc] using hp)⟩
  refine forall₂_of_map_eq (by rw [hentries, hentries, h.map_look_column?]) ?_
  intro p hp p' hp' heq
  obtain ⟨hrow, hlook⟩ := Prod.mk.inj heq
  exact ⟨hrow, hlook, h.related (hget hp) (hrow ▸ hget hp')⟩

/-- Two blocks at one place, which look alike. -/
structure Paired (R : String → String → LinearMap F → LinearMap F → Prop) (t t' : String × String × LinearMap F) :
    Prop where
  row_eq : t'.1 = t.1
  col_eq : t'.2.1 = t.2.1
  look_eq : t'.2.2.look = t.2.2.look
  related : R t.1 t.2.1 t.2.2 t'.2.2

/-- The blocks, side by side. -/
theorem forall₂_blocks (h : Agrees R A A') : List.Forall₂ (Paired R) A.blocks A'.blocks := by
  have hblocks : ∀ B : BlockMatrix F, B.blocks.map (fun t => (t.1, t.2.1, t.2.2.look)) =
      B.looks.entries.flatMap fun q => q.2.entries.map fun p => (p.1, q.1, p.2) := fun B => by
    simp [blocks, looks, mapBlocks, Keyed.map, List.flatMap_map, List.map_flatMap, Function.comp_def]
  refine forall₂_of_map_eq (by rw [hblocks, hblocks, h.looks_eq]) ?_
  rintro ⟨i, j, K⟩ hK ⟨i', j', K'⟩ hK' heq
  simp only [Prod.mk.injEq] at heq
  obtain ⟨rfl, rfl, hlook⟩ := heq
  exact ⟨rfl, rfl, hlook, h.related (mem_blocks.mp hK) (mem_blocks.mp hK')⟩

variable [Arith F]

omit [Arith F] in
theorem mirrors_checkColumn {column column' : Keyed (LinearMap F)}
    (h : column'.map LinearMap.look = column.map LinearMap.look) (hK : K'.look = K.look) (col : String) :
    Mirrors (checkColumn column col K) (checkColumn column' col K') fun _ _ => True := by
  intro _ hok
  have hcols := checkColumn_eq_ok_iff.mp hok
  have hfirst := congrArg Keyed.first? h
  rw [Keyed.first?_map, Keyed.first?_map] at hfirst
  unfold checkColumn
  split
  case h_1 => trivial
  case h_2 r a ha =>
    rw [ha, Option.map_some, eq_comm, Option.map_eq_some_iff] at hfirst
    obtain ⟨⟨r', b⟩, hb, heq⟩ := hfirst
    obtain ⟨-, -, hcols'⟩ := LinearMap.look_eq_iff.mp (Prod.mk.inj heq).2
    obtain ⟨-, -, hbK⟩ := hcols _ hb
    refine (LinearMap.yields_colCount ⟨rfl, rfl⟩).bind ?_
    rintro _ rfl
    refine (LinearMap.yields_colCount ⟨rfl, (LinearMap.look_eq_iff.mp hK).2.2⟩).bind ?_
    rintro _ rfl
    rw [if_pos (hcols'.symm.trans hbK)]
    trivial

/-- What is known of the summands is known of the sums. -/
def SumClosed (R : String → String → LinearMap F → LinearMap F → Prop) : Prop :=
  ∀ ⦃i j K K' L L' P P'⦄, R i j K K' → R i j L L' → K.add L = .ok P → K'.add L' = .ok P' → R i j P P'

theorem mirrors_insertOrAdd (h : Agrees R A A') (hR : SumClosed R) (hlook : K'.look = K.look) (hK : R row col K K') :
    Mirrors (A.insertOrAdd row col K) (A'.insertOrAdd row col K') (Agrees R) := by
  have hcolumn : ((A'.column? col).getD ∅).map LinearMap.look = ((A.column? col).getD ∅).map LinearMap.look := by
    have hgetD : ∀ B : BlockMatrix F, ((B.column? col).getD ∅).map LinearMap.look =
        ((B.column? col).map (Keyed.map LinearMap.look)).getD ∅ := fun B => by
      cases B.column? col <;> rfl
    rw [hgetD, hgetD, h.map_look_column?]
  refine (mirrors_checkColumn hcolumn hlook col).bind fun _ _ _ => ?_
  cases hA : A.get? row col with
  | none =>
    rw [h.get?_eq_none hA]
    exact Mirrors.pure (h.set hlook hK)
  | some a =>
    obtain ⟨a', hA', ha, haR⟩ := h.exists_get? hA
    rw [hA']
    have hadd : Mirrors (a.add K) (a'.add K') fun P P' => P'.look = P.look ∧ a.add K = .ok P ∧ a'.add K' = .ok P' :=
      (LinearMap.mirrors_add ha hlook).and (fun _ hP => hP) fun _ hP => hP
    exact hadd.bind fun P P' ⟨hlook, hP, hP'⟩ => Mirrors.pure (h.set hlook (hR haR hK hP hP'))

theorem mirrors_insertAll (h : Agrees R A A') (hR : SumClosed R) {items items' : List (String × String × LinearMap F)}
    (hitems : List.Forall₂ (Paired R) items items') :
    Mirrors (A.insertAll items) (A'.insertAll items') (Agrees R) := by
  refine Mirrors.foldlM hitems ?_ h
  rintro B B' ⟨row, col, K⟩ ⟨_, _, K'⟩ hB ⟨rfl, rfl, hlook, hK⟩
  exact hB.mirrors_insertOrAdd hR hlook hK

theorem mirrors_addScaled {S : String → String → LinearMap F → LinearMap F → Prop} {B B' : BlockMatrix F}
    (h : Agrees R A A') (hR : SumClosed R) (hB : Agrees S B B') (alpha : F)
    (hscale : ∀ {i j K K'}, S i j K K' → R i j (K.scale alpha) (K'.scale alpha)) :
    Mirrors (A.addScaled alpha B) (A'.addScaled alpha B') (Agrees R) := by
  refine h.mirrors_insertAll hR (List.rel_map ?_ hB.forall₂_blocks)
  rintro ⟨i, j, K⟩ ⟨_, _, K'⟩ ⟨rfl, rfl, hlook, hK⟩
  exact ⟨rfl, rfl, LinearMap.look_scale hlook alpha, hscale hK⟩

end Agrees

end BlockMatrix

end BlockElimination
