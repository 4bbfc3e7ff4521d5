import BlockElimination.LinearMap.Basic

/-!
# Equality of linear maps

Maps of different kinds differ. Parts in one marked storage are equal; all else compares number by number, so
that NaN differs from itself and the two zeros agree.
-/
namespace BlockElimination.LinearMap

variable {F : Type} [Arith F]

def beq : LinearMap F → LinearMap F → Bool
  | dense a, dense b => a.beq b
  | kron a b, kron c d => a.beq c && b.beq d
  | diag a, diag b => a.sameStorage b || a.value == b.value
  | scalar m a, scalar n b => m == n && (a.sameStorage b || a.value == b.value)
  | _, _ => false

instance : BEq (LinearMap F) := ⟨beq⟩

end BlockElimination.LinearMap
