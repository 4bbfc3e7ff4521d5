import BlockElimination.Factor.Elimination
import BlockElimination.Proofs.BlockMatrix.Symmetric
import BlockElimination.Proofs.LinearMap.Inverse

/-!
# The choice and the inversion of pivots

Both rules choose a name that has a column. Whether a chosen pivot can be inverted is a question of the quadratic form:
if that is large enough at all vectors with a coordinate one, every diagonal block can be.
-/
namespace BlockElimination.Factor

open Matrix BlockMatrix

variable {F : Type}

theorem mem_offDiagonalEntries {A : BlockMatrix F} {key i : String} {K : LinearMap F} :
    (i, K) ∈ offDiagonalEntries A key ↔ i ≠ key ∧ A.get? i key = some K := by
  unfold offDiagonalEntries
  cases h : A.column? key with
  | none => simp [get?, h]
  | some column => simp [get?, h, Keyed.mem_entries_iff, and_comm]

theorem nodup_offDiagonalEntries (A : BlockMatrix F) (key : String) :
    ((offDiagonalEntries A key).map Prod.fst).Nodup := by
  unfold offDiagonalEntries
  split
  case h_1 column _ => exact column.nodup_keys.sublist (List.filter_sublist.map Prod.fst)
  case h_2 => exact List.nodup_nil

section Choice
variable {A : BlockMatrix F}

theorem yields_nonzeros (kind : Kind) (m n : ℕ) : Yields (kind.nonzeros m n) fun _ => True := by
  cases kind with
  | dense => exact (yields_sizeMul m n).mono fun _ _ => trivial
  | kron => exact (yields_sizeMul m n).bind fun _ _ => trivial
  | diag => trivial
  | scalar => trivial

theorem yields_fillOfColumn (pivot : Kind) (column : List (Kind × ℕ)) :
    Yields (fillOfColumn pivot column) fun _ => True :=
  Yields.foldlM (fun _ _ => True) trivial fun _ _ _ _ _ => (yields_nonzeros _ _ _).bind fun _ _ => yields_sizeAdd _ _

theorem yields_diagonal (A : BlockMatrix F) (key : String) :
    (diagonal A key).Yields (fun a => A.get? key key = some a)
      fun e => e = .missingDiagonal key ∧ ¬A.contains key key := by
  unfold diagonal
  cases h : A.get? key key with
  | some a => rfl
  | none => exact Outcome.Yields.report_bind (by simp [contains, h])

/-- The fill is a question of the kinds and the row counts in the column. -/
theorem yields_fill_eq (A : BlockMatrix F) (key : String) :
    (fill A key).Yields
      (fun f => ∃ a, A.get? key key = some a ∧
        fillOfColumn a.kind ((offDiagonalEntries A key).map fun p => (p.2.kind, p.2.rows)) = .ok f)
      fun e => e = .missingDiagonal key ∧ ¬A.contains key key := by
  refine (yields_diagonal A key).bind fun a ha => ?_
  refine Outcome.Yields.bind (Outcome.Yields.mapM (fun p => (p.2.kind, p.2.rows)) fun p _ => ?_) ?_
  · exact Outcome.Yields.map ((Outcome.Yields.lift (LinearMap.yields_rowCount ⟨rfl, rfl⟩)).mono
      (fun _ hs => hs ▸ rfl) fun _ h => h)
  · rintro _ rfl
    exact Outcome.Yields.lift (((yields_fillOfColumn a.kind _).and fun _ h => h).mono fun f hf => ⟨a, ha, hf.2⟩)

theorem yields_fill (A : BlockMatrix F) (key : String) :
    (fill A key).Yields (fun _ => A.contains key key) fun e => e = .missingDiagonal key ∧ ¬A.contains key key :=
  (yields_fill_eq A key).mono (fun _ ⟨a, ha, _⟩ => contains_iff.mpr ⟨a, ha⟩) fun _ h => h

theorem betterPivot_eq (best : Option (String × ℕ)) (key : String) (f : ℕ) :
    betterPivot best key f = some (key, f) ∨ best.isSome ∧ betterPivot best key f = best := by
  unfold betterPivot
  cases best with
  | none => exact .inl rfl
  | some p =>
    dsimp only
    split
    · exact .inr ⟨rfl, rfl⟩
    · exact .inl rfl

/-- There is a choice if there is a name, and it is one of the names. -/
def Chooses (A : BlockMatrix F) (names : List String) (best : Option (String × ℕ)) : Prop :=
  (names ≠ [] → best.isSome) ∧ ∀ p ∈ best, p.1 ∈ A.colKeys

/-- What is missing where there is no choice: all columns, or the diagonal block of one. -/
def Lacks (A : BlockMatrix F) : BlockError → Prop
  | .emptyPivot => A.colKeys = []
  | .missingDiagonal k => k ∈ A.colKeys ∧ ¬A.contains k k
  | _ => False

theorem yields_leastFill (A : BlockMatrix F) : (leastFill? A).Yields (Chooses A A.colKeys) (Lacks A) := by
  refine Outcome.Yields.foldlM (Chooses A) ⟨fun h => absurd rfl h, fun _ h => nomatch h⟩ ?_
  rintro done key hkey best ⟨-, hmem⟩
  refine Outcome.Yields.bind ((yields_fill A key).mono (fun _ h => h) ?_) fun f _ => ?_
  · rintro _ ⟨rfl, hnot⟩
    exact ⟨hkey, hnot⟩
  · refine Outcome.Yields.report_bind (Outcome.Yields.pure_iff.mpr ?_)
    rcases betterPivot_eq best key f with h | ⟨hsome, h⟩
    · rw [h]
      refine ⟨fun _ => rfl, ?_⟩
      rintro _ ⟨⟩
      exact hkey
    · rw [h]
      exact ⟨fun _ => hsome, hmem⟩

theorem yields_ofChoice {finish : Option (String × ℕ) → Outcome BlockError (String × ℕ)}
    (hfound : ∀ p, finish (some p) = pure p)
    (hempty : finish none = Outcome.report .noColumn >>= fun _ => Outcome.error .emptyPivot)
    {o : Outcome BlockError (Option (String × ℕ))} (ho : o.Yields (Chooses A A.colKeys) (Lacks A)) :
    (o >>= finish).Yields (fun p => p.1 ∈ A.colKeys) (Lacks A) := by
  refine ho.bind ?_
  rintro best ⟨hsome, hmem⟩
  cases best with
  | some p =>
    rw [hfound]
    exact Outcome.Yields.pure_iff.mpr (hmem p rfl)
  | none =>
    rw [hempty]
    exact Outcome.Yields.report_bind (by_contra fun h => Bool.false_ne_true (hsome h))

theorem yields_nextPivot (rule : PivotRule) (A : BlockMatrix F) :
    (nextPivot rule A).Yields (fun p => p.1 ∈ A.colKeys) (Lacks A) := by
  cases rule with
  | minFill =>
    refine yields_ofChoice (o := leastFill? A) ?_ ?_ (yields_leastFill A)
    · exact fun _ => rfl
    · rfl
  | natural =>
    refine yields_ofChoice (o := pure (A.colKeys.head?.map fun key => (key, 0))) ?_ ?_
      (Outcome.Yields.pure_iff.mpr ⟨fun h => ?_, fun p hp => ?_⟩)
    · exact fun _ => rfl
    · rfl
    · simpa using h
    · obtain ⟨k, hk, rfl⟩ := Option.map_eq_some_iff.mp hp
      exact List.mem_of_head? hk

end Choice

section Inversion
variable [Field F] [LinearOrder F] {A : BlockMatrix F} {dim : String → ℕ} {tol : F}

/-- Some diagonal block is missing or may be rejected. -/
def Stuck (tol : F) (A : BlockMatrix F) (dim : String → ℕ) : Prop :=
  ∃ k ∈ A.colKeys, ∀ K, A.get? k k = some K → K.Rejectable tol (dim k) (dim k)

theorem stuck_of_not_contains {k : String} (hk : k ∈ A.colKeys) (h : ¬A.contains k k) : Stuck tol A dim :=
  ⟨k, hk, fun K hK => absurd (contains_iff.mpr ⟨K, hK⟩) h⟩

theorem Lacks.stuck {e : BlockError} (h : Lacks A e) : A.colKeys = [] ∨ Stuck tol A dim := by
  cases e with
  | emptyPivot => exact .inl h
  | missingDiagonal k => exact .inr (stuck_of_not_contains h.1 h.2)
  | _ => exact h.elim

/-- Every name has a diagonal block and the quadratic form is larger than the tolerance wherever a coordinate is one. A
tolerance acts on the factors of a Kronecker product and not on the product, so such a block asks for the tolerance
zero. -/
structure Pivotable (tol : F) (A : BlockMatrix F) (dim : String → ℕ) : Prop where
  diagonal : ∀ k ∈ A.colKeys, ∃ K, A.get? k k = some K ∧ (K.kind = .kron → tol = 0 ∧ 0 < dim k)
  large : ∀ x : ∀ k, Fin (dim k) → F, (∃ k ∈ A.colKeys, ∃ p, x k p = 1) → tol < |A.quadratic dim x|

theorem Pivotable.not_stuck (h : Pivotable tol A dim) (hA : A.BlockSymmetric dim) : ¬Stuck tol A dim := by
  rintro ⟨k, hk, hstuck⟩
  obtain ⟨K, hK, hkron⟩ := h.diagonal k hk
  have hblock : A.block dim dim k k = K.matrix (dim k) (dim k) := block_of_get? hK
  have hsymm : (K.matrix (dim k) (dim k)).IsSymm := hblock ▸ hA.isSymm k
  refine (hstuck K hK rfl hsymm ?_).elim fun hkind hnot => hnot (hkron hkind)
  rintro u ⟨p, hp⟩
  rw [← hblock, ← hA.quadratic_vectorAt]
  exact h.large _ ⟨k, hk, p, by rw [vectorAt, Function.update_self, hp]⟩

variable [IsStrictOrderedRing F]

theorem yields_pivotInverse (htol : 0 ≤ tol) (hA : A.BlockSymmetric dim) {key : String} (hkey : key ∈ A.colKeys) :
    (pivotInverse tol A key).Yields
      (fun P => P.Sized (dim key) (dim key) ∧ A.contains key key ∧
        A.block dim dim key key * P.matrix (dim key) (dim key) = 1)
      fun _ => Stuck tol A dim := by
  refine ((yields_diagonal A key).mono (fun _ h => h) fun _ h => stuck_of_not_contains hkey h.2).bind fun K hK => ?_
  have hblock : A.block dim dim key key = K.matrix (dim key) (dim key) := block_of_get? hK
  have hinverse := LinearMap.yields_inverse htol (hA.conforms.sized hK)
  have hstuck : K.Rejectable tol (dim key) (dim key) → Stuck tol A dim := fun h =>
    ⟨key, hkey, fun L hL => Option.some.inj (hK.symm.trans hL) ▸ h⟩
  refine Outcome.Yields.mapError (hinverse.mono (fun P hP => ?_) fun _ h => h) fun _ h => hstuck h
  refine ⟨hP.sized, contains_iff.mpr ⟨K, hK⟩, ?_⟩
  rw [hblock]
  exact hP.mul_eq_one (.of_isSymm (hblock ▸ hA.isSymm key))

end Inversion

end BlockElimination.Factor
