import BlockElimination.Kernel.Matrix

/-!
# Products index by index

The two products of dense arrays as loops, which read their operands by row and column and overwrite the result where it
stands. Whatever is read or written is addressed through a check: the row and the column against the matrix, the address
against the array. The address itself is a size and is computed as one.
-/
namespace BlockElimination.Kernel

variable {F : Type}

/-- The element at an address. -/
def element (x : Array F) (p : Nat) : Except Fault F :=
  if h : p < x.size then .ok x[p] else .error .outOfRange

/-- Overwrites the element at an address. -/
def overwriteElement (x : Array F) (p : Nat) (value : F) : Except Fault (Array F) :=
  if p < x.size then .ok (x.setIfInBounds p value) else .error .outOfRange

/-- The address of the entry `(r, c)` where every column has `rows` entries. -/
def address (rows r c : Nat) : Except Fault Nat := do
  let start ← Size.mul c rows
  Size.add start r

/-- An array that stores `rows` by `cols` entries and is read as that matrix or as its transpose. -/
structure View (F : Type) where
  rows : Nat
  cols : Nat
  array : Array F
  flipped : Bool

namespace View

/-- Where the entry `(r, c)` stands. -/
def place (A : View F) (r c : Nat) : Except Fault Nat :=
  let (r, c) := if A.flipped then (c, r) else (r, c)
  if r < A.rows ∧ c < A.cols then address A.rows r c else .error .outOfRange

def read (A : View F) (r c : Nat) : Except Fault F := do
  let p ← A.place r c
  element A.array p

end View

variable [Arith F]

/-- The sum of `n` terms in ascending order, each computed when it is added. -/
def sumOfTerms (n : Nat) (term : Nat → Except Fault F) : Except Fault F :=
  (List.range n).foldlM
    (fun sum i => do
      let next ← term i
      return sum + next) 0

/-- Overwrites `y` by `α A x + β y`, where `A` is stored `rows` by `cols`. -/
def transformInPlace (flipped : Bool) (rows cols : Nat) (alpha : F) (a x : Array F) (beta : F) (y : Array F) :
    Except Fault (Array F) := do
  let len ← Size.mul rows cols
  requireLengths
    (a.size = len ∧ x.size = (if flipped then rows else cols) ∧ y.size = (if flipped then cols else rows))
  let A : View F := { rows, cols, array := a, flipped }
  (List.range y.size).foldlM
    (fun y r => do
      let sum ← sumOfTerms x.size fun c => return (← A.read r c) * (← element x c)
      let old ← element y r
      overwriteElement y r (alpha * sum + beta * old)) y

/-- Overwrites `c` by `α A B + β C`, column by column. -/
def multiplyInPlace (flipA flipB : Bool) (m n k : Nat) (alpha : F) (a b : Array F) (beta : F) (c : Array F) :
    Except Fault (Array F) := do
  let lenA ← Size.mul m k
  requireLengths (a.size = lenA)
  let lenB ← Size.mul k n
  requireLengths (b.size = lenB)
  let lenC ← Size.mul m n
  requireLengths (c.size = lenC)
  let A : View F := { rows := storedRows flipA m k, cols := storedRows flipA k m, array := a, flipped := flipA }
  let B : View F := { rows := storedRows flipB k n, cols := storedRows flipB n k, array := b, flipped := flipB }
  (List.range n).foldlM
    (fun c j =>
      (List.range m).foldlM
        (fun c i => do
          let sum ← sumOfTerms k fun l => return (← A.read i l) * (← B.read l j)
          let p ← address m i j
          let old ← element c p
          overwriteElement c p (alpha * sum + beta * old)) c) c

end BlockElimination.Kernel
