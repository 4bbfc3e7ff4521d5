import BlockElimination.Proofs.LinearMap.Arithmetic
import BlockElimination.Proofs.LinearMap.Written

/-!
# Products of linear maps

Two maps are multiplied exactly if the columns of the left are as many as the rows of the right. The kind of the product
is known from the kinds of the factors, unless these are Kronecker products that do not fit pairwise; then it is dense.
Every path to the product writes out as the product of the two matrices.
-/
namespace BlockElimination.LinearMap

open Matrix

section Kinds
variable {F : Type} [Arith F] {K L : LinearMap F} {m k n : ℕ}

/-- The kind that a product has. -/
def HasProductKind (K L P : LinearMap F) : Prop :=
  (Unchained K L → P.kind = .dense) ∧
    (¬Unchained K L → P.kind = Operation.multiply.resultKind K.kind L.kind)

omit [Arith F] in
theorem not_unchained (h : K.kind ≠ .kron ∨ L.kind ≠ .kron) : ¬Unchained K L := by
  rintro ⟨a, b, c, d, rfl, rfl, -⟩
  rcases h with h | h
  · exact h rfl
  · exact h rfl

theorem Sized.yields_hasProductKind (hK : K.Sized m k) (hL : L.Sized k n) :
    Yields (K.mul L) (HasProductKind K L) := by
  apply hK.mul_cases hL
  · intro s hs _
    have hleft : K.kind = .scalar := by rw [hs]; rfl
    refine ⟨fun hnot => absurd hnot (not_unchained (.inl (by simp [hleft]))), fun _ => ?_⟩
    rw [kind_scale, Operation.resultKind, hleft, Kind.scalar_ofProduct]
  · intro s hs _
    have hright : L.kind = .scalar := by rw [hs]; rfl
    refine ⟨fun hnot => absurd hnot (not_unchained (.inr (by simp [hright]))), fun _ => ?_⟩
    rw [kind_scale, Operation.resultKind, hright, Kind.ofProduct_scalar]
  · intro u v hu hv _ _ _
    subst hu hv
    exact ⟨fun hnot => absurd hnot (not_unchained (.inl Kind.noConfusion)), fun _ => rfl⟩
  · intro a b c d hab hcd hchains
    subst hab hcd
    have hleft : Yields (a.mul c) (·.Sized a.rows c.cols) := Sized.yields_mul ⟨rfl, rfl⟩ ⟨hchains.1.symm, rfl⟩
    have hright : Yields (b.mul d) (·.Sized b.rows d.cols) := Sized.yields_mul ⟨rfl, rfl⟩ ⟨hchains.2.symm, rfl⟩
    refine hleft.bind fun P _ => hright.bind fun Q _ => Yields.pure_iff.mpr ⟨?_, fun _ => rfl⟩
    rintro ⟨a', b', c', d', hab, hcd, hnot⟩
    cases hab
    cases hcd
    exact absurd hchains hnot
  · intro hwritten
    have hdense := (hK.yields_denseProduct hL).and (ensures_kind_denseProduct K L)
    refine hdense.mono fun P hP => ⟨fun _ => hP.2, fun hchained => ?_⟩
    rw [hP.2]
    exact (hwritten.resolve_left hchained).symm

/-- The only other fault is that the shapes do not fit. It arises before anything is computed. -/
theorem mul_of_cols_ne_rows (h : K.cols ≠ L.rows) :
    K.mul L = .error .overflow ∨ K.mul L = .error (.productShape K.rows K.cols L.rows L.cols) := by
  rw [mul.eq_def]
  unfold size
  split
  case isTrue =>
    split
    case isTrue => exact .inr (if_pos h)
    case isFalse => exact .inl rfl
  case isFalse => exact .inl rfl

end Kinds

variable {F : Type} [CommRing F] [DecidableEq F]

/-- A column times a row, whose factors do not fit those of `broad` although the shapes do. -/
def narrow : LinearMap ℤ := .kron (.ofEntries 2 1 fun i _ => (i : ℤ) + 1) (.ofEntries 1 2 fun _ j => (j : ℤ) - 3)

/-- A nested product of a row and a column. -/
def broad : LinearMap ℤ :=
  .kron (.ofEntries 2 1 fun i _ => 2 * (i : ℤ) - 1) (.kron (.ofDiagonal #[5]) (.ofEntries 1 3 fun _ j => (j : ℤ) + 4))

end BlockElimination.LinearMap
