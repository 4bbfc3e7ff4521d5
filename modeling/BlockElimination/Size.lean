import BlockElimination.Fault

/-!
# Sizes

Row counts, column counts and lengths are below `Size.bound`, and an array holds fewer than `Size.capacity`
scalars. Arithmetic on sizes faults where the exact result is out of range, so a size that is returned is
the exact one.
-/
namespace BlockElimination.Size

def bound : Nat := Nat.pow 2 64

def capacity : Nat := Nat.pow 2 60

def add (a b : Nat) : Except Fault Nat :=
  if a + b < bound then .ok (a + b) else .error .overflow

def mul (a b : Nat) : Except Fault Nat :=
  if a * b < bound then .ok (a * b) else .error .overflow

/-- The sum of sizes, added from left to right. -/
def sum (sizes : List Nat) : Except Fault Nat := sizes.foldlM add 0

def storable (n : Nat) : Except Fault Unit :=
  if n < capacity then .ok () else .error .overflow

theorem add_eq_ok_iff {a b c : Nat} : add a b = .ok c ↔ a + b < bound ∧ c = a + b := by
  unfold add
  split <;> grind

theorem mul_eq_ok_iff {a b c : Nat} : mul a b = .ok c ↔ a * b < bound ∧ c = a * b := by
  unfold mul
  split <;> grind

@[simp] theorem storable_eq_ok_iff {n : Nat} : storable n = .ok () ↔ n < capacity := by
  unfold storable
  split <;> simp_all

theorem capacity_le_bound : capacity ≤ bound := by decide

end BlockElimination.Size
