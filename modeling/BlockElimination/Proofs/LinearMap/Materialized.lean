import BlockElimination.Proofs.LinearMap.Upright

/-!
# A dense map and its copy

Dense maps of one size with the same entries cannot be told apart, whether their arrays are flipped or not. So a dense
map may be replaced by what it is written out as, in any arithmetic and also where an operation faults.
-/
namespace BlockElimination

section Copy
variable {F : Type} [Arith F]

namespace Dense

/-- The map that is read back from what the map is written out as. -/
def copy (d : Dense F) : Dense F where
  rows := d.height
  cols := d.width
  array := { value := (LinearMap.dense d).entries }
  size_array := LinearMap.size_entries (.dense d)

theorem ofArray_entries {d : Dense F} (hd : d.rows * d.cols < Size.bound) :
    LinearMap.ofArray (LinearMap.dense d).rows (LinearMap.dense d).cols (LinearMap.dense d).entries =
      .ok (.dense d.copy) := by
  have hbound : (LinearMap.dense d).rows * (LinearMap.dense d).cols < Size.bound := by
    rwa [← d.size_array, LinearMap.size_array_eq] at hd
  have hsize := LinearMap.size_entries (.dense d)
  rw [LinearMap.ofArray, ofArray, if_pos hbound, dif_pos hsize]
  rfl

theorem alike_copy (d : Dense F) : d.Alike d.copy where
  height := rfl
  width := rfl
  entry _ hi _ hj := (LinearMap.coord_entries (.dense d) hi hj).symm

end Dense

namespace LinearMap

/-- No operation tells the maps apart: it has the same value or the same fault, alone or with any third map. -/
structure Indistinguishable (K M : LinearMap F) : Prop where
  size : K.size = M.size
  actOn : ∀ alpha x beta y, K.actOn alpha x beta y = M.actOn alpha x beta y
  transposeActOn : ∀ alpha x beta y, K.transposeActOn alpha x beta y = M.transposeActOn alpha x beta y
  apply : ∀ x, K.apply x = M.apply x
  written : K.toColumnMajor = M.toColumnMajor
  scale : ∀ alpha, (K.scale alpha).toColumnMajor = (M.scale alpha).toColumnMajor
  transpose : K.transpose.toColumnMajor = M.transpose.toColumnMajor
  neg : K.neg.toColumnMajor = M.neg.toColumnMajor
  mul : ∀ L, (K.mul L >>= toColumnMajor) = (M.mul L >>= toColumnMajor) ∧
    (L.mul K >>= toColumnMajor) = (L.mul M >>= toColumnMajor)
  add : ∀ L, (K.add L >>= toColumnMajor) = (M.add L >>= toColumnMajor) ∧
    (L.add K >>= toColumnMajor) = (L.add M >>= toColumnMajor)
  sub : ∀ L, (K.sub L >>= toColumnMajor) = (M.sub L >>= toColumnMajor) ∧
    (L.sub K >>= toColumnMajor) = (L.sub M >>= toColumnMajor)

variable {K M : LinearMap F}

theorem Alike.mul_left (h : K.Alike M) (L : LinearMap F) : (K.mul L >>= toColumnMajor) = M.mul L >>= toColumnMajor :=
  (h.parallel_mul (.refl L)).bind_eq fun _ _ hP => hP.toColumnMajor_eq.symm

theorem Alike.mul_right (h : K.Alike M) (L : LinearMap F) : (L.mul K >>= toColumnMajor) = L.mul M >>= toColumnMajor :=
  ((Alike.refl L).parallel_mul h).bind_eq fun _ _ hP => hP.toColumnMajor_eq.symm

theorem Alike.indistinguishable (h : K.Alike M) : K.Indistinguishable M where
  size := h.size_eq.symm
  actOn alpha x beta y := (h.checkedAction_eq false alpha x beta y).symm
  transposeActOn alpha x beta y := (h.checkedAction_eq true alpha x beta y).symm
  apply x := by simp only [apply, actOn, h.size_eq, h.checkedAction_eq]
  written := h.toColumnMajor_eq.symm
  scale alpha := (h.scale alpha).toColumnMajor_eq.symm
  transpose := h.transpose.toColumnMajor_eq.symm
  neg := (h.scale (-1)).toColumnMajor_eq.symm
  mul L := ⟨h.mul_left L, h.mul_right L⟩
  add L := ⟨by rw [h.add_eq (.refl L)], by rw [(Alike.refl L).add_eq h]⟩
  sub L := ⟨by rw [sub, sub, h.add_eq (.refl L.neg)], by simp only [sub, neg, (Alike.refl L).add_eq (h.scale (-1))]⟩

end LinearMap

end Copy

/-- A dense map, flipped or not, is replaced by its copy and nothing changes, in no arithmetic and for no third map. -/
theorem dense_indistinguishable_from_copy {F : Type} [Scalar F] (d : Dense F) (hd : d.rows * d.cols < Size.bound) :
    ∃ a M, (LinearMap.dense d).toColumnMajor = .ok a ∧
      LinearMap.ofArray (LinearMap.dense d).rows (LinearMap.dense d).cols a = .ok M ∧
        (LinearMap.dense d).Indistinguishable M ∧
          (d.Symmetric → ∀ eps, (LinearMap.dense d).inverse eps = M.inverse eps) := by
  have halike := d.alike_copy
  refine ⟨_, _, rfl, Dense.ofArray_entries hd, (LinearMap.Alike.dense halike).indistinguishable, fun hsymm eps => ?_⟩
  exact ((LinearMap.SamePivot.dense halike (.inr hsymm)).inverse_eq eps).symm

def flippedRectangle : Dense ℚ := ⟨3, 2, { value := #[1, 2, 3, 4, 5, 6] }, true, rfl⟩

def flippedSquare : Dense ℚ := ⟨2, 2, { value := #[2, 1, 1, 5] }, true, rfl⟩

theorem flippedRectangle_indistinguishable :
    (∃ M, LinearMap.ofArray 2 3 #[1, 4, 2, 5, 3, 6] = .ok M ∧
        (LinearMap.dense flippedRectangle).Indistinguishable M) ∧
      ∃ M, LinearMap.ofArray 2 2 #[2, 1, 1, 5] = .ok M ∧
        (LinearMap.dense flippedSquare).inverse 0 = M.inverse 0 := by
  constructor
  · obtain ⟨a, M, ha, hM, hsame, -⟩ := dense_indistinguishable_from_copy flippedRectangle (by decide)
    obtain ⟨-, rfl⟩ := LinearMap.toColumnMajor_eq_ok_iff.mp ha
    have hentries : (LinearMap.dense flippedRectangle).entries = #[1, 4, 2, 5, 3, 6] := by decide +kernel
    exact ⟨M, hentries ▸ hM, hsame⟩
  · obtain ⟨a, M, ha, hM, -, hinverse⟩ := dense_indistinguishable_from_copy flippedSquare (by decide)
    obtain ⟨-, rfl⟩ := LinearMap.toColumnMajor_eq_ok_iff.mp ha
    have hentries : (LinearMap.dense flippedSquare).entries = #[2, 1, 1, 5] := by decide +kernel
    exact ⟨M, hentries ▸ hM, hinverse ⟨rfl, by decide +kernel⟩ 0⟩

end BlockElimination
