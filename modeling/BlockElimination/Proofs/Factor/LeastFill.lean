import BlockElimination.Proofs.Factor.Pivot
import BlockElimination.Proofs.Factor.Progress

/-!
# The least fill

The fill of a name is a sum over all ordered pairs of off-diagonal blocks of its column. The rule of least fill visits the
names in order and keeps the first of the least: whatever stands before its choice is strictly larger, and nothing after
it is smaller.
-/
namespace BlockElimination

namespace Kind

/-- What `nonzeros` estimates, if no size leaves its range. -/
def estimate (kind : Kind) (m n : ℕ) : ℕ :=
  match kind with
  | dense => m * n
  | kron => max (m * n / 2) (min m n)
  | diag | scalar => min m n

theorem yields_nonzeros_estimate (kind : Kind) (m n : ℕ) : Yields (kind.nonzeros m n) (· = kind.estimate m n) := by
  cases kind with
  | dense => exact yields_sizeMul m n
  | kron =>
    refine (yields_sizeMul m n).bind ?_
    rintro _ rfl
    exact Yields.pure_iff.mpr rfl
  | diag => exact Yields.ok_iff.mpr rfl
  | scalar => exact Yields.ok_iff.mpr rfl

/-- The kind that `A D⁻¹ Bᵀ` is predicted to have, from those of `A`, `D` and `B`. -/
def ofUpdate (a d b : Kind) : Kind := Operation.multiply.resultKind (Operation.multiply.resultKind a d) b

end Kind

namespace Factor

open BlockMatrix

variable {F : Type} {A : BlockMatrix F} {key : String}

/-- The estimated nonzeros of `V D⁻¹ Vᵀ`, over all ordered pairs of off-diagonal blocks in the column of `key`. -/
def fillSum (A : BlockMatrix F) (key : String) : ℕ :=
  (A.get? key key).elim 0 fun d =>
    ((offDiagonalEntries A key).map fun p =>
      ((offDiagonalEntries A key).map fun q => (Kind.ofUpdate p.2.kind d.kind q.2.kind).estimate p.2.rows q.2.rows).sum).sum

/-- The estimated nonzeros over all ordered pairs of blocks that are known by kind and row count. -/
def columnSum (pivot : Kind) (column : List (Kind × ℕ)) : ℕ :=
  (column.map fun p => (column.map fun q => (Kind.ofUpdate p.1 pivot q.1).estimate p.2 q.2).sum).sum

theorem sum_pairs_eq_columnSum (pivot : Kind) (column : List (Kind × ℕ)) :
    ((column.flatMap fun p => column.map fun q => (p, q)).map fun t =>
      (Kind.ofUpdate t.1.1 pivot t.2.1).estimate t.1.2 t.2.2).sum = columnSum pivot column := by
  simp only [columnSum, sum_map_flatMap, List.map_map, Function.comp_def]

theorem yields_fillOfColumn_sum (pivot : Kind) (column : List (Kind × ℕ)) :
    Yields (fillOfColumn pivot column) (· = columnSum pivot column) := by
  let term : (Kind × ℕ) × (Kind × ℕ) → ℕ := fun t => (Kind.ofUpdate t.1.1 pivot t.2.1).estimate t.1.2 t.2.2
  rw [← sum_pairs_eq_columnSum]
  refine Yields.foldlM (fun done total => total = (done.map term).sum) rfl ?_
  rintro done ⟨p, q⟩ - total rfl
  refine (Kind.yields_nonzeros_estimate _ p.2 q.2).bind ?_
  rintro _ rfl
  unfold Size.add
  split
  case isTrue =>
    rw [Yields.ok_iff, List.map_append, List.sum_append, List.map_singleton, List.sum_singleton]
    rfl
  case isFalse => exact Yields.error_iff.mpr rfl

theorem yields_fill_fillSum (h : A.contains key key) :
    (fill A key).Returns (· = fillSum A key) := by
  refine (yields_fill_eq A key).mono ?_ fun _ hlacks => hlacks.2 h
  rintro f ⟨d, hd, hf⟩
  rw [(yields_fillOfColumn_sum d.kind _).of_eq_ok hf, columnSum, fillSum, hd]
  simp only [List.map_map, Function.comp_def]
  rfl

/-- `p` is the first name of least `f` among those that have been visited, with its value. -/
structure Leads (f : String → ℕ) (done : List String) (p : String × ℕ) : Prop where
  value_eq : p.2 = f p.1
  split : ∃ before after, done = before ++ p.1 :: after ∧ (∀ j ∈ before, p.2 < f j) ∧ ∀ j ∈ after, p.2 ≤ f j

theorem Leads.of_lt {f : String → ℕ} {done : List String} {p : String × ℕ} (h : Leads f done p) (hlt : f key < p.2) :
    Leads f (done ++ [key]) (key, f key) := by
  obtain ⟨before, after, rfl, hbefore, hafter⟩ := h.split
  refine ⟨rfl, _, [], rfl, fun j hj => ?_, by simp⟩
  rcases List.mem_append.mp hj with hj | hj
  · exact hlt.trans (hbefore j hj)
  · rcases List.mem_cons.mp hj with rfl | hj
    · exact hlt.trans_eq h.value_eq
    · exact hlt.trans_le (hafter j hj)

theorem Leads.of_le {f : String → ℕ} {done : List String} {p : String × ℕ} (h : Leads f done p) (hle : p.2 ≤ f key) :
    Leads f (done ++ [key]) p := by
  obtain ⟨before, after, rfl, hbefore, hafter⟩ := h.split
  refine ⟨h.value_eq, before, after ++ [key], by simp, hbefore, fun j hj => ?_⟩
  rcases List.mem_append.mp hj with hj | hj
  · exact hafter j hj
  · exact List.mem_singleton.mp hj ▸ hle

/-- Visiting a further name keeps the lead of the first among the least. -/
theorem exists_leads_betterPivot {f : String → ℕ} {done : List String} {best : Option (String × ℕ)}
    (key : String) (hnone : best = none → done = []) (hbest : ∀ p, best = some p → Leads f done p) :
    ∃ p, betterPivot best key (f key) = some p ∧ Leads f (done ++ [key]) p := by
  cases best with
  | none => exact ⟨_, rfl, rfl, [], [], by simp [hnone rfl], by simp, by simp⟩
  | some p =>
    have hp := hbest p rfl
    simp only [betterPivot]
    split
    case isTrue hle => exact ⟨p, rfl, hp.of_le hle⟩
    case isFalse hlt => exact ⟨_, rfl, hp.of_lt (Nat.lt_of_not_le hlt)⟩

theorem yields_leastFill_leads (hfull : FullDiagonal A) :
    (leastFill? A).Returns fun best =>
      (best = none → A.colKeys = []) ∧ ∀ p, best = some p → Leads (fillSum A) A.colKeys p := by
  refine Outcome.Yields.foldlM (fun done best => (best = none → done = []) ∧
    ∀ p, best = some p → Leads (fillSum A) done p) ⟨fun _ => rfl, fun _ h => nomatch h⟩ ?_
  rintro done key hkey best ⟨hnone, hbest⟩
  refine (yields_fill_fillSum (hfull key hkey)).bind ?_
  rintro _ rfl
  refine Outcome.Yields.report_bind (Outcome.Yields.pure_iff.mpr ?_)
  obtain ⟨p, hp, hleads⟩ := exists_leads_betterPivot key hnone hbest
  rw [hp]
  refine ⟨nofun, ?_⟩
  rintro _ ⟨⟩
  exact hleads

/-- `p` is a column with its fill. No column has less, and those before it in order have more. -/
structure LeastFill (A : BlockMatrix F) (p : String × ℕ) : Prop where
  mem : p.1 ∈ A.colKeys
  fill_eq : p.2 = fillSum A p.1
  least : ∀ j ∈ A.colKeys, p.2 ≤ fillSum A j
  first : ∀ j ∈ A.colKeys, j < p.1 → p.2 < fillSum A j

theorem Leads.leastFill {p : String × ℕ} (h : Leads (fillSum A) A.colKeys p) : LeastFill A p := by
  obtain ⟨before, after, heq, hbefore, hafter⟩ := h.split
  refine ⟨heq ▸ List.mem_append_right _ List.mem_cons_self, h.value_eq, fun j hj => ?_, fun j hj hlt => hbefore j ?_⟩
  · rw [heq, List.mem_append, List.mem_cons] at hj
    rcases hj with hj | rfl | hj
    · exact (hbefore j hj).le
    · exact h.value_eq.le
    · exact hafter j hj
  · exact (mem_before_iff (heq ▸ pairwise_colKeys A)).mpr ⟨heq ▸ hj, hlt⟩

theorem yields_nextPivot_leastFill (hfull : FullDiagonal A) (hne : A.colKeys ≠ []) :
    (nextPivot .minFill A).Returns (LeastFill A) := by
  refine (yields_leastFill_leads hfull).bind ?_
  rintro best ⟨hnone, hbest⟩
  cases best with
  | none => exact absurd (hnone rfl) hne
  | some p => exact Outcome.Yields.pure_iff.mpr (hbest p rfl).leastFill

end Factor

end BlockElimination
