import BlockElimination.Proofs.BlockMatrix.Contents
import BlockElimination.Proofs.Factor.Update

/-!
# One elimination in two matrices

What an elimination reads of two matrices that look alike. The choice of the pivot goes by looks alone. The column of
the pivot gives both runs the same update if its blocks are alike: the update is upright on the diagonal, whichever way
round the column is stored, because the inverse in the middle of it is computed anew.
-/
namespace BlockElimination.Factor

open BlockMatrix

section Choice
variable {F : Type} {A A' : BlockMatrix F} {R : String → String → LinearMap F → LinearMap F → Prop} {key : String}

theorem map_offDiagonalEntries (h : Agrees R A A') (key : String) :
    (offDiagonalEntries A' key).map (fun q => (q.1, q.2.look)) =
      (offDiagonalEntries A key).map fun q => (q.1, q.2.look) := by
  have hentries : ∀ B : BlockMatrix F, (offDiagonalEntries B key).map (fun q => (q.1, q.2.look)) =
      (((B.column? key).map (Keyed.map LinearMap.look)).getD ∅).entries.filter (·.1 != key) := fun B => by
    unfold offDiagonalEntries
    cases B.column? key with
    | none => rfl
    | some column =>
      simp only [Option.map_some, Option.getD_some, Keyed.map, List.filter_map]
      rfl
  rw [hentries, hentries, h.map_look_column?]

/-- The blocks off the diagonal of a column, side by side. -/
theorem forall₂_offDiagonalEntries (h : Agrees R A A') (key : String) :
    List.Forall₂ (fun p p' => p'.1 = p.1 ∧ p.1 ≠ key ∧ p'.2.look = p.2.look ∧ R p.1 key p.2 p'.2)
      (offDiagonalEntries A key) (offDiagonalEntries A' key) := by
  refine forall₂_of_map_eq (map_offDiagonalEntries h key) fun p hp p' hp' heq => ?_
  obtain ⟨hrow, hlook⟩ := Prod.mk.inj heq
  obtain ⟨hne, hK⟩ := mem_offDiagonalEntries.mp hp
  exact ⟨hrow, hne, hlook, h.related hK (hrow ▸ (mem_offDiagonalEntries.mp hp').2)⟩

theorem mirrors_fill (h : Agrees R A A') (key : String) : (fill A key).Mirrors (fill A' key) (· = ·) := by
  intro f hf
  obtain ⟨a, ha, hfill⟩ := (yields_fill_eq A key).of_result_eq_ok hf
  obtain ⟨a', ha', hlook, -⟩ := h.exists_get? ha
  have hcolumn : (offDiagonalEntries A' key).map (fun q => (q.2.kind, q.2.rows)) =
      (offDiagonalEntries A key).map fun q => (q.2.kind, q.2.rows) := by
    have hlooks := congrArg (List.map fun q => (q.2.1, q.2.2.1)) (map_offDiagonalEntries h key)
    rwa [List.map_map, List.map_map] at hlooks
  refine (yields_fill_eq A' key).mono ?_ fun e he => he.2 (contains_iff.mpr ⟨a', ha'⟩)
  rintro f' ⟨b, hb, hfill'⟩
  obtain rfl := Option.some.inj (hb.symm.trans ha')
  rw [(LinearMap.look_eq_iff.mp hlook).1, hcolumn, hfill] at hfill'
  exact Except.ok.inj hfill'

theorem mirrors_leastFill (h : Agrees R A A') : (leastFill? A).Mirrors (leastFill? A') (· = ·) := by
  unfold leastFill?
  rw [h.colKeys_eq]
  refine Outcome.Mirrors.foldlM (R := (· = ·)) (List.forall₂_refl _) ?_ rfl
  rintro best _ rfl key _ rfl
  refine (mirrors_fill h key).bind ?_
  rintro f _ rfl
  exact Outcome.Mirrors.of_eq rfl

theorem mirrors_nextPivot (rule : PivotRule) (h : Agrees R A A') :
    (nextPivot rule A).Mirrors (nextPivot rule A') (· = ·) := by
  cases rule with
  | minFill =>
    unfold nextPivot
    refine (mirrors_leastFill h).bind ?_
    rintro best _ rfl
    exact Outcome.Mirrors.of_eq rfl
  | natural =>
    refine Outcome.Mirrors.of_eq ?_
    simp only [nextPivot, h.colKeys_eq]

theorem agrees_eraseKey (h : Agrees R A A') (key : String) : Agrees R (eraseKey A key) (eraseKey A' key) := by
  have hrows : ∀ (rows : List String) {B B' : BlockMatrix F}, Agrees R B B' →
      Agrees R (rows.foldl (erasePair key) B) (rows.foldl (erasePair key) B') := by
    intro rows
    induction rows with
    | nil => exact fun h => h
    | cons row rows ih =>
      refine fun h => ih ?_
      unfold erasePair
      split
      · exact h.erase row key
      · exact (h.erase row key).erase key row
  have heraseKey : ∀ B : BlockMatrix F, eraseKey B key =
      (((B.column? key).map (Keyed.map LinearMap.look)).elim [] Keyed.keys).foldl (erasePair key) B := fun B => by
    unfold eraseKey
    cases B.column? key with
    | none => rfl
    | some column => rw [Option.map_some, Option.elim_some, Keyed.keys_map]; rfl
  rw [heraseKey, heraseKey, h.map_look_column?]
  exact hrows _ h

theorem pivotInverse_eq [Scalar F] (h : Agrees R A A') (hpivot : ∀ K K', R key key K K' → K.SamePivot K') (tol : F) :
    pivotInverse tol A' key = pivotInverse tol A key := by
  unfold pivotInverse diagonal
  cases hA : A.get? key key with
  | none => rw [h.get?_eq_none hA]
  | some K =>
    obtain ⟨K', hA', -, hK⟩ := h.exists_get? hA
    have hinverse : K'.inverse tol = K.inverse tol := (hpivot K K' hK).inverse_eq tol
    rw [hA']
    exact congrArg (fun o : Outcome InversionError (LinearMap F) =>
      o.mapError (fun e => [.pivotFailed key e]) (BlockError.pivot key)) hinverse

theorem mirrors_offDiagonal [Arith F] (h : Agrees R A A') (hcolumn : ∀ i K K', i ≠ key → R i key K K' → K.Alike K') :
    Mirrors (offDiagonal A key) (offDiagonal A' key) SameContents := by
  refine Agrees.empty.mirrors_insertAll Agrees.sumClosed_alike ?_
  refine List.rel_map ?_ (forall₂_offDiagonalEntries h key)
  rintro ⟨_, K⟩ ⟨i, K'⟩ ⟨rfl, hne, hlook, hK⟩
  exact ⟨rfl, rfl, hlook, hcolumn _ K K' hne hK⟩

end Choice

section Column
variable {F : Type} {V V' VD VD' VT VT' : BlockMatrix F} {inv : LinearMap F} {key : String}

/-- The product of the block with the transposed block of `V` is upright. -/
def UprightBack (V : BlockMatrix F) (i j : String) (P : LinearMap F) : Prop :=
  ∀ a, V.get? i j = some a → P.UprightProduct a.transpose

/-- The products of the blocks of `VD` with the block are upright where they come to stand on the diagonal. -/
def UprightMeeting (VD : BlockMatrix F) (k j : String) (b : LinearMap F) : Prop :=
  ∀ P, VD.get? j k = some P → P.UprightProduct b

/-- The block is upright if it is on the diagonal. -/
def UprightDiagonal (i j : String) (K : LinearMap F) : Prop := i = j → K.Upright

variable [Arith F]

theorem passesToSums_uprightBack (V : BlockMatrix F) : PassesToSums (UprightBack V) :=
  fun _ _ _ _ _ hK _ hP a ha => (hK a ha).add_left hP

theorem passesToSums_uprightMeeting (VD : BlockMatrix F) : PassesToSums (UprightMeeting VD) :=
  fun _ _ _ _ _ hK _ hP a ha => (hK a ha).add_right hP

theorem passesToSums_uprightDiagonal : PassesToSums (UprightDiagonal (F := F)) :=
  fun _ _ _ _ _ _ _ hP _ => LinearMap.upright_of_add hP

/-- `V D⁻¹` -/
theorem mirrors_mul_single {ε : Type} (h : V.SameContents V') (hinv : inv.Upright) :
    (V.mul (single key inv) : Outcome ε (BlockMatrix F)).Mirrors (V'.mul (single key inv))
      (Agrees (AlikeWith (UprightBack V) (UprightBack V'))) := by
  have hV : Agrees (AlikeWith (fun i k a => V.get? i k = some a) fun i k a => V'.get? i k = some a) V V' :=
    h.mono fun ha ha' hK => ⟨hK, ha, ha'⟩
  have hD : Agrees (AlikeWith (fun k j b => k = j ∧ b.Upright) fun k j b => k = j ∧ b.Upright) (single key inv)
      (single key inv) := by
    refine .refl fun k j b hb => ?_
    rw [single, get?_set, get?_empty] at hb
    split at hb
    case isTrue hplace =>
      obtain ⟨rfl, rfl⟩ := hplace
      obtain rfl := Option.some.inj hb
      exact ⟨.refl inv, ⟨rfl, hinv⟩, rfl, hinv⟩
    case isFalse => cases hb
  have hmul : ∀ {W : BlockMatrix F} {i k j a b P}, W.get? i k = some a → k = j ∧ b.Upright → a.mul b = .ok P →
      UprightBack W i j P := by
    rintro W i k j a b P ha ⟨rfl, hb⟩ hP a' ha'
    exact Option.some.inj (ha.symm.trans ha') ▸ .of_mul hb hP
  exact hV.mirrors_mul hD (passesToSums_uprightBack V) (passesToSums_uprightBack V') hmul hmul

/-- `Vᵀ` -/
theorem mirrors_transpose_column (h : V.SameContents V')
    (hVD : Agrees (AlikeWith (UprightBack V) (UprightBack V')) VD VD') :
    Mirrors V.transpose V'.transpose (Agrees (AlikeWith (UprightMeeting VD) (UprightMeeting VD'))) := by
  have hV : Agrees (AlikeWith (fun i k a => V.get? i k = some a) fun i k a => V'.get? i k = some a) V V' :=
    h.mono fun ha ha' hK => ⟨hK, ha, ha'⟩
  refine hV.mirrors_transpose (passesToSums_uprightMeeting VD) (passesToSums_uprightMeeting VD') ?_ ?_
  · intro i j a ha P hP
    obtain ⟨_, -, -, hP⟩ := hVD.exists_get? hP
    exact hP.left a ha
  · intro i j a ha P hP
    obtain ⟨_, -, hP⟩ := hVD.exists_get?_left hP
    exact hP.right a ha

/-- `V D⁻¹ Vᵀ` -/
theorem mirrors_mul_transpose {ε : Type} (hVD : VD.SameContents VD')
    (hVT : Agrees (AlikeWith (UprightMeeting VD) (UprightMeeting VD')) VT VT') :
    (VD.mul VT : Outcome ε (BlockMatrix F)).Mirrors (VD'.mul VT')
      (Agrees (AlikeWith UprightDiagonal UprightDiagonal)) := by
  have hVD : Agrees (AlikeWith (fun i k a => VD.get? i k = some a) fun i k a => VD'.get? i k = some a) VD VD' :=
    hVD.mono fun ha ha' hK => ⟨hK, ha, ha'⟩
  have hmul : ∀ {W : BlockMatrix F} {i k j a b P}, W.get? i k = some a → UprightMeeting W k j b → a.mul b = .ok P →
      UprightDiagonal i j P := by
    rintro W i k j a b P ha hb hP rfl
    exact (hb a ha).upright_of_mul hP
  exact hVD.mirrors_mul hVT passesToSums_uprightDiagonal passesToSums_uprightDiagonal hmul hmul

end Column

end BlockElimination.Factor
