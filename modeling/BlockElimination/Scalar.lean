/-!
# Scalars

Every algorithm of the library is written once, over any type that has the operations below, and in one
fixed order of operations. No law is assumed here: the same definitions compute with binary floating-point
numbers, where sums do not associate, and are read over commutative rings and ordered fields, where they do.
-/
namespace BlockElimination

/-- The operations that products, sums, transposes and block algebra need. -/
class Arith (F : Type) extends Zero F, One F, Add F, Mul F, Neg F, BEq F

/-- The further operations that elimination and inversion need. `isLe` compares like `≤`, and answers `false`
whenever the two sides are unordered. -/
class Scalar (F : Type) extends Arith F, Sub F, Div F where
  abs : F → F
  isLe : F → F → Bool

/-- Square roots, which only Euclidean norms need. -/
class SquareRoot (F : Type) where
  sqrt : F → F

namespace Scalar

variable {F : Type} [Scalar F]

def recip (x : F) : F := 1 / x

def ten : F :=
  let two : F := 1 + 1
  two * (two * two + 1)

/-- The tolerance 10⁻¹², as the reciprocal of 10⁴ · 10⁸ where both powers come from repeated squaring. -/
def defaultTolerance : F :=
  let hundred := (ten : F) * ten
  let fourth := hundred * hundred
  recip (fourth * (fourth * fourth))

end Scalar

instance : Arith Float where
  zero := 0
  one := 1
  add := Float.add
  mul := Float.mul
  neg := Float.neg
  beq := Float.beq

instance : Scalar Float where
  sub := Float.sub
  div := Float.div
  abs := Float.abs
  isLe a b := decide (a ≤ b)

instance : SquareRoot Float := ⟨Float.sqrt⟩

instance : Arith Float32 where
  zero := 0
  one := 1
  add := Float32.add
  mul := Float32.mul
  neg := Float32.neg
  beq := Float32.beq

instance : Scalar Float32 where
  sub := Float32.sub
  div := Float32.div
  abs := Float32.abs
  isLe a b := decide (a ≤ b)

instance : SquareRoot Float32 := ⟨Float32.sqrt⟩

end BlockElimination
