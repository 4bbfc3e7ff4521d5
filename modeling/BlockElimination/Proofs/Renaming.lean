import BlockElimination.Proofs.BlockMatrix.Symmetric
import BlockElimination.Proofs.BlockVector

/-!
# Renaming

An injective renaming of the names moves every value to its new name, where the values stand in another order. The
dimensions of new names are those of the old ones, so everything is stated for dimensions `dim ∘ ρ` and `dim`.
-/
namespace BlockElimination

variable {ρ : String → String}

namespace Keyed
variable {α : Type}

def rename (ρ : String → String) (m : Keyed α) : Keyed α := m.entries.foldl (fun n p => n.insert (ρ p.1) p.2) ∅

theorem get?_foldl_insert (hρ : ρ.Injective) (k : String) {l : List (String × α)}
    (hl : l.Pairwise fun a b => a.1 < b.1) (n : Keyed α) :
    (l.foldl (fun n p => n.insert (ρ p.1) p.2) n).get? (ρ k) = (lookup k l).or (n.get? (ρ k)) := by
  induction l generalizing n with
  | nil => rfl
  | cons p l ih =>
    obtain ⟨hp, hl⟩ := List.pairwise_cons.mp hl
    rw [List.foldl_cons, ih hl, get?_insert, lookup]
    by_cases hk : k = p.1
    · have hnone : lookup k l = none := Option.eq_none_iff_forall_ne_some.mpr fun v hv =>
        String.lt_irrefl _ (hk ▸ hp _ ((mem_iff_lookup_eq_some hl).mpr hv))
      rw [hnone, if_pos (congrArg ρ hk), if_pos hk]
      rfl
    · rw [if_neg (hρ.ne hk), if_neg hk]

@[simp] theorem get?_rename (hρ : ρ.Injective) (m : Keyed α) (k : String) : (m.rename ρ).get? (ρ k) = m.get? k :=
  (get?_foldl_insert hρ k m.sorted ∅).trans Option.or_none

theorem contains_foldl_insert {k : String} (l : List (String × α)) {n : Keyed α}
    (h : (l.foldl (fun n p => n.insert (ρ p.1) p.2) n).contains k) : n.contains k ∨ ∃ p ∈ l, ρ p.1 = k := by
  induction l generalizing n with
  | nil => exact .inl h
  | cons p l ih =>
    rcases ih h with h | ⟨q, hq, hk⟩
    · by_cases hk : ρ p.1 = k
      · exact .inr ⟨p, List.mem_cons_self, hk⟩
      · rw [contains, get?_insert, if_neg fun e => hk e.symm] at h
        exact .inl h
    · exact .inr ⟨q, List.mem_cons_of_mem _ hq, hk⟩

theorem get?_rename_eq_some (hρ : ρ.Injective) {m : Keyed α} {k : String} {v : α} :
    (m.rename ρ).get? k = some v ↔ ∃ i, ρ i = k ∧ m.get? i = some v := by
  constructor
  · intro h
    rcases contains_foldl_insert m.entries (contains_iff.mpr ⟨v, h⟩) with hnone | ⟨p, -, rfl⟩
    · cases hnone
    · exact ⟨p.1, rfl, by rwa [get?_rename hρ] at h⟩
  · rintro ⟨i, rfl, hi⟩
    rwa [get?_rename hρ]

end Keyed

namespace BlockVector
variable {F : Type} {v : BlockVector F}

def rename (ρ : String → String) (v : BlockVector F) : BlockVector F := ⟨v.segments.rename ρ⟩

@[simp] theorem get?_rename (hρ : ρ.Injective) (v : BlockVector F) (k : String) : (v.rename ρ).get? (ρ k) = v.get? k :=
  Keyed.get?_rename hρ v.segments k

theorem contains_rename (hρ : ρ.Injective) {k : String} : (v.rename ρ).contains k ↔ ∃ i, ρ i = k ∧ v.contains i := by
  simp only [contains_iff, get?, rename, Keyed.get?_rename_eq_some hρ]
  tauto

theorem Conforms.rename (hρ : ρ.Injective) {dim : String → ℕ} (h : v.Conforms (dim ∘ ρ)) :
    (v.rename ρ).Conforms dim := by
  intro k s hs
  obtain ⟨i, rfl, hi⟩ := (Keyed.get?_rename_eq_some hρ).mp hs
  exact h i s hi

theorem part_rename [CommRing F] (hρ : ρ.Injective) (dim : String → ℕ) (v : BlockVector F) (k : String) :
    (v.rename ρ).part dim (ρ k) = v.part (dim ∘ ρ) k := by
  rw [part, part, get?_rename hρ]
  rfl

end BlockVector

namespace BlockMatrix
variable {F : Type} {A : BlockMatrix F}

def rename (ρ : String → String) (A : BlockMatrix F) : BlockMatrix F :=
  ⟨(A.columns.map (Keyed.rename ρ)).rename ρ⟩

theorem column?_rename_eq_some (hρ : ρ.Injective) {k : String} {c : Keyed (LinearMap F)} :
    (A.rename ρ).column? k = some c ↔ ∃ j column, ρ j = k ∧ A.column? j = some column ∧ column.rename ρ = c := by
  simp only [column?, rename, Keyed.get?_rename_eq_some hρ, Keyed.get?_map, Option.map_eq_some_iff]
  tauto

theorem get?_rename_eq_some (hρ : ρ.Injective) {r c : String} {K : LinearMap F} :
    (A.rename ρ).get? r c = some K ↔ ∃ i j, ρ i = r ∧ ρ j = c ∧ A.get? i j = some K := by
  simp only [get?_eq_some, column?_rename_eq_some hρ]
  constructor
  · rintro ⟨_, ⟨j, column, rfl, hcolumn, rfl⟩, hK⟩
    obtain ⟨i, rfl, hi⟩ := (Keyed.get?_rename_eq_some hρ).mp hK
    exact ⟨i, j, rfl, rfl, column, hcolumn, hi⟩
  · rintro ⟨i, j, rfl, rfl, column, hcolumn, hi⟩
    exact ⟨_, ⟨j, column, rfl, hcolumn, rfl⟩, (Keyed.get?_rename hρ column i).trans hi⟩

@[simp] theorem get?_rename (hρ : ρ.Injective) (A : BlockMatrix F) (i j : String) :
    (A.rename ρ).get? (ρ i) (ρ j) = A.get? i j := by
  refine Option.ext fun K => ?_
  rw [get?_rename_eq_some hρ]
  constructor
  · rintro ⟨i', j', hi, hj, hK⟩
    rwa [hρ hi, hρ hj] at hK
  · exact fun hK => ⟨i, j, rfl, rfl, hK⟩

theorem contains_rename (hρ : ρ.Injective) {r c : String} :
    (A.rename ρ).contains r c ↔ ∃ i j, ρ i = r ∧ ρ j = c ∧ A.contains i j := by
  simp only [contains_iff, get?_rename_eq_some hρ]
  tauto

theorem mem_colKeys_rename (hρ : ρ.Injective) {k : String} : k ∈ (A.rename ρ).colKeys ↔ ∃ j ∈ A.colKeys, ρ j = k := by
  simp only [mem_colKeys, column?_rename_eq_some hρ]
  constructor
  · rintro ⟨_, j, column, rfl, hcolumn, -⟩
    exact ⟨j, ⟨column, hcolumn⟩, rfl⟩
  · rintro ⟨j, ⟨column, hcolumn⟩, rfl⟩
    exact ⟨_, j, column, rfl, hcolumn, rfl⟩

theorem names_rename (hρ : ρ.Injective) : (A.rename ρ).names = A.names.image ρ := by
  ext k
  simp [mem_colKeys_rename hρ]

variable [CommRing F] [DecidableEq F] {dim : String → ℕ}

theorem block_rename (hρ : ρ.Injective) (i j : String) :
    (A.rename ρ).block dim dim (ρ i) (ρ j) = A.block (dim ∘ ρ) (dim ∘ ρ) i j := by
  rw [block, block, get?_rename hρ]
  rfl

theorem BlockSymmetric.rename (hρ : ρ.Injective) (h : A.BlockSymmetric (dim ∘ ρ)) :
    (A.rename ρ).BlockSymmetric dim := by
  have hcomm : ∀ {r c}, (A.rename ρ).contains r c → (A.rename ρ).contains c r := fun hc => by
    obtain ⟨i, j, rfl, rfl, hij⟩ := (contains_rename hρ).mp hc
    exact (contains_rename hρ).mpr ⟨j, i, rfl, rfl, h.contains_comm hij⟩
  refine ⟨⟨fun hK => ?_, fun k hk => ?_⟩, hcomm, fun r c => ?_⟩
  · obtain ⟨i, j, rfl, rfl, hij⟩ := (get?_rename_eq_some hρ).mp hK
    exact h.conforms.sized hij
  · obtain ⟨j, hj, rfl⟩ := (mem_colKeys_rename hρ).mp hk
    obtain ⟨i, hi⟩ := h.conforms.occupied j hj
    exact ⟨ρ i, (contains_rename hρ).mpr ⟨i, j, rfl, rfl, hi⟩⟩
  · by_cases hc : (A.rename ρ).contains r c
    · obtain ⟨i, j, rfl, rfl, -⟩ := (contains_rename hρ).mp hc
      rw [block_rename hρ, block_rename hρ, h.transposed]
    · rw [block_of_not_contains hc, block_of_not_contains (mt hcomm hc), Matrix.transpose_zero]

end BlockMatrix

end BlockElimination
