import BlockElimination.Kernel.Indexed
import BlockElimination.Proofs.Kernel.Workspace
import BlockElimination.Proofs.Yields

/-!
# Products index by index are the products

No index is refused once the lengths have been checked. An element is overwritten after the last time that it is read
for another one, so the loops leave what the products compute entry by entry, and every column of a matrix product is
the action of the left matrix on a column of the right one. The operations are the same and in the same order, so this
asks for no law of arithmetic.
-/
namespace BlockElimination.Kernel

/-- A loop over the numbers below `n`, given the state before every pass. -/
theorem foldlM_range_eq_ok {β : Type} {f : β → ℕ → Except Fault β} (state : ℕ → β) {n : ℕ}
    (step : ∀ i < n, f (state i) i = .ok (state (i + 1))) : (List.range n).foldlM f (state 0) = .ok (state n) := by
  induction n with
  | zero => rfl
  | succ n ih =>
    rw [List.range_succ, List.foldlM_append, ih fun i hi => step i (by omega)]
    change f (state n) n >>= pure = _
    rw [step n (by omega)]
    rfl

theorem mul_bind_of_lt {β : Type} {m n : ℕ} (h : m * n < Size.bound) (f : ℕ → Except Fault β) :
    (Size.mul m n >>= f) = f (m * n) := by
  rw [Size.mul, if_pos h]
  rfl

section Addresses
variable {rows cols r c : ℕ}

theorem address_eq_ok (hr : r < rows) (hc : c < cols) (hbound : rows * cols < Size.bound) :
    address rows r c = .ok (c * rows + r) := by
  have hlt : c * rows + r < rows * cols := columnMajor_lt hr hc
  rw [address, mul_bind_of_lt (by omega)]
  exact if_pos (by omega)

@[simp] theorem storedRows_storedRows (flipped : Bool) (m k : ℕ) :
    storedRows flipped (storedRows flipped m k) (storedRows flipped k m) = m := by
  cases flipped <;> rfl

theorem storedRows_mul_storedRows (flipped : Bool) (m k : ℕ) :
    storedRows flipped m k * storedRows flipped k m = m * k := by
  cases flipped
  · rfl
  · exact Nat.mul_comm k m

end Addresses

variable {F : Type}

theorem overwriteElement_eq_ok {x : Array F} {p : ℕ} (hp : p < x.size) (value : F) :
    overwriteElement x p value = .ok (x.setIfInBounds p value) := if_pos hp

variable [Arith F]

theorem element_eq_ok {x : Array F} {p : ℕ} (hp : p < x.size) : element x p = .ok (coord x p) := by
  rw [element, dif_pos hp, coord_of_lt hp]

/-- An entry of the matrix that an array is read as is read without a fault. -/
theorem View.read_eq_ok {rows cols r c : ℕ} {a : Array F} {flipped : Bool} (hsize : a.size = rows * cols)
    (hbound : rows * cols < Size.bound) (hr : r < storedRows flipped rows cols) (hc : c < storedRows flipped cols rows) :
    (View.mk rows cols a flipped).read r c = .ok (storedEntry flipped rows a r c) := by
  unfold View.read View.place
  cases flipped with
  | false =>
    have hrow : r < rows := hr
    have hcol : c < cols := hc
    simp only [Bool.false_eq_true, if_false]
    rw [if_pos ⟨hrow, hcol⟩, address_eq_ok hrow hcol hbound]
    exact element_eq_ok (hsize ▸ columnMajor_lt hrow hcol)
  | true =>
    have hrow : c < rows := hc
    have hcol : r < cols := hr
    simp only [if_true]
    rw [if_pos ⟨hrow, hcol⟩, address_eq_ok hrow hcol hbound]
    exact element_eq_ok (hsize ▸ columnMajor_lt hrow hcol)

theorem View.read_factor_eq_ok {m k i l : ℕ} {a : Array F} {flipped : Bool} (hsize : a.size = m * k)
    (hbound : m * k < Size.bound) (hi : i < m) (hl : l < k) :
    (View.mk (storedRows flipped m k) (storedRows flipped k m) a flipped).read i l =
      .ok (storedEntry flipped (storedRows flipped m k) a i l) := by
  rw [← storedRows_mul_storedRows flipped] at hsize hbound
  exact View.read_eq_ok hsize hbound (by rwa [storedRows_storedRows]) (by rwa [storedRows_storedRows])

theorem sumOfTerms_eq_ok {n : ℕ} {term : ℕ → Except Fault F} {f : ℕ → F} (h : ∀ i < n, term i = .ok (f i)) :
    sumOfTerms n term = .ok (ascendingSum n f) := by
  refine foldlM_range_eq_ok (fun i => ascendingSum i f) fun i hi => ?_
  rw [h i hi]
  rfl

/-- The array `x` after its first `done` elements have been overwritten by `α Σ + β x`. -/
def accumulated (alpha : F) (sum : ℕ → F) (beta : F) (x : Array F) (done : ℕ) : Array F :=
  overwrite 0 done (fun p x => alpha * sum p + beta * coord x p) x

section Passes
variable {alpha beta : F} {sum : ℕ → F} {x : Array F} {p : ℕ}

theorem accumulated_size : accumulated alpha sum beta x x.size =
    tabulate x.size fun p => alpha * sum p + beta * coord x p := by
  rw [eq_tabulate_coord (accumulated alpha sum beta x x.size), accumulated, size_overwrite]
  refine tabulate_congr fun p hp => ?_
  exact coord_overwrite_zero (f := fun p => alpha * sum p + beta * coord x p) le_rfl
    (fun p _ y hy => by rw [hy p le_rfl]) hp

/-- One pass of a product, which reads the element that it overwrites. -/
theorem pass_eq_ok (hp : p < x.size) :
    (element (accumulated alpha sum beta x p) p >>= fun old =>
      overwriteElement (accumulated alpha sum beta x p) p (alpha * sum p + beta * old)) =
      .ok (accumulated alpha sum beta x (p + 1)) := by
  have hsize : p < (accumulated alpha sum beta x p).size := by rwa [accumulated, size_overwrite]
  rw [element_eq_ok hsize]
  change overwriteElement _ p _ = _
  rw [overwriteElement_eq_ok hsize, accumulated, accumulated, overwrite_succ, Nat.zero_add]

end Passes

theorem requireLengths_bind_congr {α : Type} {p : Prop} [Decidable p] {f g : Unit → Except Fault α}
    (h : p → f () = g ()) : (requireLengths p >>= f) = requireLengths p >>= g := by
  rw [requireLengths_bind, requireLengths_bind]
  split
  case isTrue hp => exact h hp
  case isFalse => rfl

theorem transformInPlace_eq (flipped : Bool) (rows cols : ℕ) (alpha : F) (a x : Array F) (beta : F) (y : Array F) :
    transformInPlace flipped rows cols alpha a x beta y = transformGeneral flipped rows cols alpha a x beta y := by
  refine bind_congr_of_eq_ok fun len hlen => requireLengths_bind_congr ?_
  obtain ⟨hbound, rfl⟩ := Size.mul_eq_ok_iff.mp hlen
  rintro ⟨ha, hx, hy⟩
  let sum (r : ℕ) : F := ascendingSum x.size fun c => storedEntry flipped rows a r c * coord x c
  have hloop : (List.range y.size).foldlM (fun y r => do
      let sum ← sumOfTerms x.size fun c => return (← (View.mk rows cols a flipped).read r c) * (← element x c)
      let old ← element y r
      overwriteElement y r (alpha * sum + beta * old)) y = .ok (accumulated alpha sum beta y y.size) := by
    refine foldlM_range_eq_ok (accumulated alpha sum beta y) fun r hr => ?_
    have hsum : (sumOfTerms x.size fun c => return (← (View.mk rows cols a flipped).read r c) * (← element x c)) =
        .ok (sum r) := by
      refine sumOfTerms_eq_ok fun c hc => ?_
      rw [View.read_eq_ok ha hbound (hr.trans_eq hy) (hc.trans_eq hx), element_eq_ok hc]
      rfl
    rw [hsum]
    exact pass_eq_ok hr
  exact hloop.trans (congrArg Except.ok accumulated_size)

theorem multiplyInPlace_eq (flipA flipB : Bool) (m n k : ℕ) (alpha : F) (a b : Array F) (beta : F) (c : Array F) :
    multiplyInPlace flipA flipB m n k alpha a b beta c = multiplyGeneral flipA flipB m n k alpha a b beta c := by
  refine bind_congr_of_eq_ok fun lenA hlenA => requireLengths_bind_congr fun ha => ?_
  refine bind_congr_of_eq_ok fun lenB hlenB => requireLengths_bind_congr fun hb => ?_
  refine bind_congr_of_eq_ok fun lenC hlenC => requireLengths_bind_congr fun hc => ?_
  obtain ⟨hboundA, rfl⟩ := Size.mul_eq_ok_iff.mp hlenA
  obtain ⟨hboundB, rfl⟩ := Size.mul_eq_ok_iff.mp hlenB
  obtain ⟨hboundC, rfl⟩ := Size.mul_eq_ok_iff.mp hlenC
  let sum (p : ℕ) : F := ascendingSum k fun l =>
    storedEntry flipA (storedRows flipA m k) a (p % m) l * storedEntry flipB (storedRows flipB k n) b l (p / m)
  let A : View F := ⟨storedRows flipA m k, storedRows flipA k m, a, flipA⟩
  let B : View F := ⟨storedRows flipB k n, storedRows flipB n k, b, flipB⟩
  have hloop : (List.range n).foldlM (fun c j =>
      (List.range m).foldlM (fun c i => do
        let sum ← sumOfTerms k fun l => return (← A.read i l) * (← B.read l j)
        let p ← address m i j
        let old ← element c p
        overwriteElement c p (alpha * sum + beta * old)) c) (accumulated alpha sum beta c (0 * m)) =
      .ok (accumulated alpha sum beta c (n * m)) := by
    -- The elements are overwritten in the order in which they stand.
    refine foldlM_range_eq_ok (fun j => accumulated alpha sum beta c (j * m)) fun j hj => ?_
    rw [Nat.succ_mul]
    refine foldlM_range_eq_ok (fun i => accumulated alpha sum beta c (j * m + i)) fun i hi => ?_
    have hsum : (sumOfTerms k fun l => return (← A.read i l) * (← B.read l j)) = .ok (sum (j * m + i)) := by
      refine sumOfTerms_eq_ok fun l hl => ?_
      rw [View.read_factor_eq_ok ha hboundA hi hl, View.read_factor_eq_ok hb hboundB hl hj, columnMajor_mod hi,
        columnMajor_div hi]
      rfl
    rw [hsum, address_eq_ok hi hj hboundC]
    exact pass_eq_ok (hc ▸ columnMajor_lt hi hj)
  rw [Nat.zero_mul, Nat.mul_comm n m, ← hc] at hloop
  refine hloop.trans (congrArg Except.ok ?_)
  rw [accumulated_size, hc]
  rfl

theorem transformGeneral_eq_ok {flipped : Bool} {rows cols : ℕ} {a x y : Array F} (ha : a.size = rows * cols)
    (hbound : rows * cols < Size.bound) (hx : x.size = storedRows flipped cols rows)
    (hy : y.size = storedRows flipped rows cols) (alpha beta : F) :
    transformGeneral flipped rows cols alpha a x beta y = .ok (matrixAction flipped rows alpha a x beta y) := by
  rw [transformGeneral, mul_bind_of_lt hbound]
  exact requireLengths_bind_pure_eq_ok_iff.mpr ⟨⟨ha, hx, hy⟩, rfl⟩

theorem multiplyGeneral_eq_ok {flipA flipB : Bool} {m n k : ℕ} {a b c : Array F} (ha : a.size = m * k)
    (hb : b.size = k * n) (hc : c.size = m * n) (hboundA : m * k < Size.bound) (hboundB : k * n < Size.bound)
    (hboundC : m * n < Size.bound) (alpha beta : F) :
    multiplyGeneral flipA flipB m n k alpha a b beta c = .ok (matrixProduct flipA flipB m n k alpha a b beta c) := by
  rw [multiplyGeneral, mul_bind_of_lt hboundA, requireLengths_bind, if_pos ha, mul_bind_of_lt hboundB,
    requireLengths_bind, if_pos hb, mul_bind_of_lt hboundC, requireLengths_bind, if_pos hc]
  rfl

/-- The first `m` entries of column `j` of the matrix that an array is read as. -/
def columnOf (flipped : Bool) (rows m : ℕ) (a : Array F) (j : ℕ) : Array F :=
  tabulate m fun i => storedEntry flipped rows a i j

/-- A column of a product is the action of the left matrix on a column of the right one. -/
theorem columnOf_matrixProduct {flipA flipB : Bool} {m n k j : ℕ} {alpha beta : F} {a b c : Array F} (hj : j < n) :
    columnOf false m m (matrixProduct flipA flipB m n k alpha a b beta c) j =
      matrixAction flipA (storedRows flipA m k) alpha a (columnOf flipB (storedRows flipB k n) k b j) beta
        (columnOf false m m c j) := by
  rw [columnOf, matrixAction, columnOf, columnOf, size_tabulate, size_tabulate]
  refine tabulate_congr fun i hi => ?_
  rw [storedEntry, if_neg Bool.false_ne_true, matrixProduct, coord_tabulate, if_pos (columnMajor_lt hi hj),
    columnMajor_mod hi, columnMajor_div hi, coord_tabulate, if_pos hi]
  congr 2
  refine ascendingSum_congr fun l hl => ?_
  rw [coord_tabulate, if_pos hl]

end BlockElimination.Kernel
