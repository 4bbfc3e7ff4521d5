import BlockElimination.LinearMap.Inverse
import BlockElimination.Proofs.LinearMap.Sizes

/-!
# Storage marks and arithmetic

Marks tell which payloads live in one storage. What is computed anew has none, and then a multiple by one is the map
itself.
-/
namespace BlockElimination

namespace Stored

def unmarked {α : Type} (a : Stored α) : Stored α := { value := a.value }

end Stored

namespace Dense

def unmarked {F : Type} (d : Dense F) : Dense F := { d with array := d.array.unmarked, size_array := d.size_array }

end Dense

namespace LinearMap

variable {F : Type}

/-- The map without marks on its storage: the numbers that it stores, and the way it reads them. -/
def unmarked : LinearMap F → LinearMap F
  | dense d => dense d.unmarked
  | kron a b => kron a.unmarked b.unmarked
  | diag d => diag d.unmarked
  | scalar n alpha => scalar n alpha.unmarked

theorem ensures_unmarked_ofArray (m n : ℕ) (a : Array F) : Ensures (ofArray m n a) fun P => P.unmarked = P := by
  refine Ensures.map fun d hd => ?_
  unfold Dense.ofArray at hd
  split at hd
  · split at hd
    · cases hd
      rfl
    · cases hd
  · cases hd

theorem ensures_unmarked_denseProduct [Arith F] (K L : LinearMap F) :
    Ensures (K.denseProduct L) fun P => P.unmarked = P := by
  unfold denseProduct
  refine Ensures.bind_any fun _ => ?_
  split
  · exact Ensures.pure_iff.mpr rfl
  · split
    · exact Ensures.bind_any fun _ => ensures_unmarked_ofArray _ _ _
    · exact Ensures.bind_any fun _ => Ensures.bind_any fun _ => Ensures.bind_any fun _ => ensures_unmarked_ofArray _ _ _
    · exact Ensures.bind_any fun _ => Ensures.bind_any fun _ => ensures_unmarked_ofArray _ _ _

section Inversion
variable [Scalar F]

theorem unmarked_of_inverse {eps : F} {K J : LinearMap F} (h : (K.inverse eps).result = .ok J) : J.unmarked = J :=
  inverse_induction (p := fun J => J.unmarked = J) (fun _ _ => rfl) (fun P Q hP hQ => by rw [unmarked, hP, hQ])
    (fun _ => rfl) (fun _ _ => rfl) h

/-- Multiplying by one leaves a map without marks as it is, wherever it leaves the numbers as they are. -/
theorem scale_one (hone : ∀ x : F, 1 * x = x) {K : LinearMap F} (h : K.unmarked = K) : K.scale 1 = K := by
  have hscale : ∀ x : Array F, Kernel.scale 1 x = x := fun x => by simp [Kernel.scale, hone]
  induction K with
  | dense d =>
    obtain ⟨rows, cols, array, flipped, hsize⟩ := d
    cases array
    simp_all [unmarked, scale, Dense.unmarked, Dense.scale, Stored.unmarked]
  | kron a b iha ihb =>
    obtain ⟨ha, -⟩ := LinearMap.kron.inj h
    rw [scale, iha ha]
  | diag d =>
    cases d
    simp_all [unmarked, scale, ofDiagonal, Stored.unmarked]
  | scalar n alpha =>
    cases alpha
    simp_all [unmarked, scale, ofScalar, Stored.unmarked]

end Inversion

end LinearMap

end BlockElimination
