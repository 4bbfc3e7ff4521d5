/-!
# Storage

A payload may carry a mark of the storage it lives in. Payloads with one mark are the same even where their
numbers, such as NaN, differ from themselves. What an operation computes has no mark until it is shared.
-/
namespace BlockElimination

/-- A value, with the mark of its storage if it has one. -/
structure Stored (α : Type) where
  value : α
  mark : Option Nat := none

namespace Stored

variable {α : Type}

/-- Whether two payloads live in one marked storage. -/
def sameStorage (a b : Stored α) : Bool :=
  match a.mark, b.mark with
  | some i, some j => i == j
  | _, _ => false

/-- Gives the mark `next` to a payload without a mark, and answers the next mark that is free. -/
def share (a : Stored α) (next : Nat) : Stored α × Nat :=
  match a.mark with
  | some _ => (a, next)
  | none => ({ a with mark := some next }, next + 1)

@[simp] theorem value_share (a : Stored α) (next : Nat) : (a.share next).1.value = a.value := by
  unfold share
  split <;> rfl

theorem isSome_mark_share (a : Stored α) (next : Nat) : (a.share next).1.mark.isSome := by
  unfold share
  split <;> simp_all

theorem share_of_mark {a : Stored α} {i : Nat} (h : a.mark = some i) (next : Nat) : a.share next = (a, next) := by
  simp [share, h]

end Stored

end BlockElimination
