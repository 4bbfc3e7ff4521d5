import BlockElimination.Proofs.BlockMatrix.Arithmetic
import BlockElimination.Proofs.BlockMatrix.Symmetric
import BlockElimination.Proofs.LinearMap.Storable

/-!
# Block matrices whose entries can be stored

The names of a finite set have dimensions, none of them zero, and an array can hold a square matrix with all of these
rows and columns. Then every block between two of the names can be stored, and block matrices between them have sums,
products and transposes, which are of this kind again.
-/
namespace BlockElimination

/-- A loop whose steps have values has a value. -/
theorem exists_foldlM_eq_ok {α β : Type} {f : β → α → Except Fault β} {l : List α} {b : β} (inv : β → Prop)
    (start : inv b) (step : ∀ a ∈ l, ∀ b, inv b → ∃ c, f b a = .ok c ∧ inv c) :
    ∃ c, l.foldlM f b = .ok c ∧ inv c := by
  induction l generalizing b with
  | nil => exact ⟨b, rfl, start⟩
  | cons a l ih =>
    rw [List.forall_mem_cons] at step
    obtain ⟨c, hc, hinv⟩ := step.1 b start
    rw [List.foldlM_cons, hc]
    exact ih hinv step.2

namespace BlockMatrix

variable {F : Type} {A B : BlockMatrix F} {S : Finset String} {dim : String → ℕ} {i j : String} {K : LinearMap F}

/-- The names have dimensions, and an array can hold a matrix with the rows and columns of all of them. -/
structure Room (S : Finset String) (dim : String → ℕ) : Prop where
  pos : ∀ k ∈ S, 0 < dim k
  square : (∑ k ∈ S, dim k) ^ 2 < Size.capacity

theorem Room.mul_lt (h : Room S dim) (hi : i ∈ S) (hj : j ∈ S) : dim i * dim j < Size.capacity := by
  refine lt_of_le_of_lt ?_ h.square
  rw [sq]
  exact Nat.mul_le_mul (Finset.single_le_sum (fun _ _ => Nat.zero_le _) hi)
    (Finset.single_le_sum (fun _ _ => Nat.zero_le _) hj)

theorem Room.storable (h : Room S dim) (hi : i ∈ S) (hj : j ∈ S) (hK : K.Sized (dim i) (dim j)) : K.Storable :=
  hK.storable (h.pos i hi) (h.pos j hj) (h.mul_lt hi hj)

/-- All blocks are between names of the set, and have their dimensions. -/
def Within (A : BlockMatrix F) (S : Finset String) (dim : String → ℕ) : Prop :=
  ∀ i j K, A.get? i j = some K → i ∈ S ∧ j ∈ S ∧ K.Sized (dim i) (dim j)

theorem Within.empty (S : Finset String) (dim : String → ℕ) : (empty : BlockMatrix F).Within S dim :=
  fun _ _ _ h => nomatch h

theorem Within.set (hA : A.Within S dim) (hi : i ∈ S) (hj : j ∈ S) (hK : K.Sized (dim i) (dim j)) :
    (A.set i j K).Within S dim := by
  intro r c L hL
  rw [get?_set] at hL
  split at hL
  case isTrue hplace =>
    obtain ⟨rfl, rfl⟩ := hplace
    obtain rfl := Option.some.inj hL
    exact ⟨hi, hj, hK⟩
  case isFalse => exact hA r c L hL

theorem BlockSymmetric.within_names [CommRing F] [DecidableEq F] (h : A.BlockSymmetric dim) : A.Within A.names dim := by
  intro i j K hK
  have hc : A.contains i j := contains_iff.mpr ⟨K, hK⟩
  exact ⟨mem_names.mpr (h.row_mem hc), mem_names.mpr (mem_colKeys_of_contains hc), h.conforms.sized hK⟩

variable [Arith F] (hS : Room S dim)
include hS

theorem Within.exists_insertOrAdd_eq_ok (hA : A.Within S dim) (hi : i ∈ S) (hj : j ∈ S)
    (hK : K.Sized (dim i) (dim j)) : ∃ B, A.insertOrAdd i j K = .ok B ∧ B.Within S dim := by
  have hcheck : checkColumn ((A.column? j).getD ∅) j K = .ok () := by
    refine checkColumn_eq_ok_iff.mpr fun p hp => ?_
    obtain ⟨hr, -, hsize⟩ := hA _ _ _ (get?_of_first? hp)
    exact ⟨(hS.storable hr hj hsize).fits, (hS.storable hi hj hK).fits, hsize.2.trans hK.2.symm⟩
  rw [insertOrAdd, hcheck, ok_bind]
  cases hget : A.get? i j with
  | none => exact ⟨_, rfl, hA.set hi hj hK⟩
  | some a =>
    obtain ⟨-, -, ha⟩ := hA i j a hget
    obtain ⟨P, hP, hsize⟩ := (hS.storable hi hj ha).exists_add_eq_ok (hS.storable hi hj hK)
      ⟨hK.1.trans ha.1.symm, hK.2.trans ha.2.symm⟩
    refine ⟨A.set i j P, ?_, hA.set hi hj ⟨hsize.1.trans ha.1, hsize.2.trans ha.2⟩⟩
    dsimp only
    rw [hP]
    rfl

theorem Within.exists_insertAll_eq_ok (hA : A.Within S dim) {items : List (String × String × LinearMap F)}
    (hitems : ∀ t ∈ items, t.1 ∈ S ∧ t.2.1 ∈ S ∧ t.2.2.Sized (dim t.1) (dim t.2.1)) :
    ∃ B, A.insertAll items = .ok B ∧ B.Within S dim :=
  exists_foldlM_eq_ok (fun B : BlockMatrix F => B.Within S dim) hA fun t ht _ hB =>
    hB.exists_insertOrAdd_eq_ok hS (hitems t ht).1 (hitems t ht).2.1 (hitems t ht).2.2

theorem Within.exists_addScaled_eq_ok (hA : A.Within S dim) (hB : B.Within S dim) (alpha : F) :
    ∃ C, A.addScaled alpha B = .ok C ∧ C.Within S dim := by
  refine hA.exists_insertAll_eq_ok hS fun t ht => ?_
  obtain ⟨⟨i, j, K⟩, hK, rfl⟩ := List.mem_map.mp ht
  obtain ⟨hi, hj, hsize⟩ := hB i j K (mem_blocks.mp hK)
  exact ⟨hi, hj, hsize.scale alpha⟩

theorem Within.exists_transpose_eq_ok (hA : A.Within S dim) : ∃ B, A.transpose = .ok B ∧ B.Within S dim := by
  refine (Within.empty S dim).exists_insertAll_eq_ok hS fun t ht => ?_
  obtain ⟨⟨i, j, K⟩, hK, rfl⟩ := List.mem_map.mp ht
  obtain ⟨hi, hj, hsize⟩ := hA i j K (mem_blocks.mp hK)
  exact ⟨hj, hi, hsize.transpose⟩

theorem Within.ends_mul {ε : Type} {q : ε → Prop} {r : Fault → Prop} (hA : A.Within S dim) (hB : B.Within S dim) :
    (A.mul B).Ends (·.Within S dim) q r := by
  refine Outcome.Ends.foldlM (fun _ (C : BlockMatrix F) => C.Within S dim) (.empty S dim) ?_
  rintro - ⟨⟨i, k, j⟩, a, b⟩ ht C hC
  obtain ⟨ha, hb⟩ := mem_meetings.mp ht
  obtain ⟨hi, hk, hsizeA⟩ := hA i k a ha
  obtain ⟨-, hj, hsizeB⟩ := hB k j b hb
  have hroom : a.rows * b.cols < Size.capacity := by
    rw [hsizeA.1, hsizeB.2]
    exact hS.mul_lt hi hj
  obtain ⟨P, hP, hsize⟩ := (hS.storable hi hk hsizeA).exists_mul_eq_ok (hS.storable hk hj hsizeB)
    (hsizeA.2.trans hsizeB.1.symm) hroom
  rw [hsizeA.1, hsizeB.2] at hsize
  obtain ⟨D, hD, hwithin⟩ := hC.exists_insertOrAdd_eq_ok hS hi hj hsize
  refine Outcome.Ends.report_bind (Outcome.Ends.lift_bind_eq hP ?_)
  rw [hD]
  exact hwithin

end BlockMatrix

end BlockElimination
