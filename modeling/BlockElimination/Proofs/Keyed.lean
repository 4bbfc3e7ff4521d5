import Mathlib
import BlockElimination.Keyed

/-!
# Keys of keyed values

Membership in the list of keys, the keys before one of them, and sums over the entries that only one key contributes to.
-/
namespace BlockElimination

theorem sum_map_finset_sum {α β M : Type*} [AddCommMonoid M] (l : List α) (s : Finset β) (f : α → β → M) :
    (l.map fun a => ∑ b ∈ s, f a b).sum = ∑ b ∈ s, (l.map fun a => f a b).sum := by
  induction l with
  | nil => simp
  | cons a l ih => simp [ih, Finset.sum_add_distrib]

theorem sum_map_flatMap {α β M : Type*} [AddCommMonoid M] (l : List α) (g : α → List β) (f : β → M) :
    ((l.flatMap g).map f).sum = (l.map fun a => ((g a).map f).sum).sum := by
  induction l with
  | nil => simp
  | cons a l ih => simp [ih]

/-- Names at which every term vanishes may be left out of a sum or taken into it. -/
theorem sum_eq_sum_of_support {ι M : Type*} [AddCommMonoid M] {f : ι → M} {support : ι → Prop} {s t : Finset ι}
    (hf : ∀ k, ¬support k → f k = 0) (hs : ∀ k, support k → k ∈ s) (ht : ∀ k, support k → k ∈ t) :
    ∑ k ∈ s, f k = ∑ k ∈ t, f k :=
  Finset.sum_congr_of_eq_on_inter (fun k _ hk => hf k (mt (ht k) hk)) (fun k _ hk => hf k (mt (hs k) hk))
    fun _ _ _ => rfl

/-- Lists with the same image, side by side. -/
theorem forall₂_of_map_eq {α α' β : Type*} {f : α → β} {f' : α' → β} {l : List α} {l' : List α'} {R : α → α' → Prop}
    (h : l'.map f' = l.map f) (hR : ∀ a ∈ l, ∀ a' ∈ l', f' a' = f a → R a a') : List.Forall₂ R l l' := by
  induction l generalizing l' with
  | nil =>
    rw [List.map_eq_nil_iff.mp h]
    exact .nil
  | cons a l ih =>
    obtain ⟨a', l', rfl, ha, hl⟩ := List.map_eq_cons_iff.mp h
    refine .cons (hR a List.mem_cons_self a' List.mem_cons_self ha) (ih hl fun b hb b' hb' => ?_)
    exact hR b (List.mem_cons_of_mem a hb) b' (List.mem_cons_of_mem a' hb')

/-- Where no value occurs twice, that of an item is not among those before it. -/
theorem not_mem_map_of_nodup {α β : Type*} {f : α → β} {before after : List α} {a : α}
    (h : ((before ++ a :: after).map f).Nodup) : f a ∉ before.map f := fun hmem => by
  rw [List.map_append, List.map_cons, List.nodup_middle, List.nodup_cons] at h
  exact h.1 (List.mem_append_left _ hmem)

/-- Of names in increasing order, those less than `k` are those before it. -/
theorem mem_before_iff {before after : List String} {j k : String} (h : (before ++ k :: after).Pairwise (· < ·)) :
    j ∈ before ↔ j ∈ before ++ k :: after ∧ j < k := by
  obtain ⟨-, hcons, hless⟩ := List.pairwise_append.mp h
  refine ⟨fun hj => ⟨List.mem_append_left _ hj, hless j hj k List.mem_cons_self⟩, fun ⟨hj, hlt⟩ => ?_⟩
  have hafter := (List.pairwise_cons.mp hcons).1
  rcases List.mem_append.mp hj with hj | hj
  · exact hj
  · rcases List.mem_cons.mp hj with rfl | hj
    · exact absurd hlt (String.lt_irrefl j)
    · exact absurd (String.lt_trans hlt (hafter j hj)) (String.lt_irrefl j)

namespace Keyed

variable {α : Type}

theorem contains_iff {m : Keyed α} {k : String} : m.contains k ↔ ∃ v, m.get? k = some v := Option.isSome_iff_exists

theorem mem_keys {m : Keyed α} {k : String} : k ∈ m.keys ↔ m.contains k := by
  simp only [keys, List.mem_map, contains_iff, ← mem_entries_iff, Prod.exists, exists_and_right, exists_eq_right]

theorem isEmpty_erase_eq_false {m : Keyed α} {key : String} :
    (m.erase key).isEmpty = false ↔ ∃ k, k ≠ key ∧ m.contains k := by
  constructor
  · intro h
    obtain ⟨p, hp⟩ := List.exists_mem_of_ne_nil _ fun e => Bool.false_ne_true (h.symm.trans (List.isEmpty_iff.mpr e))
    have hget := (mem_entries_iff _ p.1 p.2).mp hp
    rw [get?_erase] at hget
    split at hget
    case isTrue => cases hget
    case isFalse hne => exact ⟨p.1, hne, contains_iff.mpr ⟨p.2, hget⟩⟩
  · rintro ⟨k, hne, hk⟩
    by_contra h
    have hnone := get?_of_isEmpty (Bool.not_eq_false _ ▸ h) k
    rw [get?_erase, if_neg hne] at hnone
    simp [contains, hnone] at hk

theorem nodup_keys (m : Keyed α) : m.keys.Nodup := by
  refine List.pairwise_map.mpr (m.sorted.imp fun h e => ?_)
  exact String.lt_irrefl _ (e ▸ h)

@[simp] theorem keys_map {β : Type} (f : α → β) (m : Keyed α) : (m.map f).keys = m.keys := by
  simp [keys, map, Function.comp_def]

theorem map_insert {β : Type} (f : α → β) (m : Keyed α) (k : String) (v : α) :
    (m.insert k v).map f = (m.map f).insert k (f v) := by
  refine ext_get? fun j => ?_
  rw [get?_map, get?_insert, get?_insert, get?_map]
  split <;> rfl

theorem map_erase {β : Type} (f : α → β) (m : Keyed α) (k : String) : (m.erase k).map f = (m.map f).erase k := by
  refine ext_get? fun j => ?_
  rw [get?_map, get?_erase, get?_erase, get?_map]
  split <;> rfl

@[simp] theorem isEmpty_map {β : Type} (f : α → β) (m : Keyed α) : (m.map f).isEmpty = m.isEmpty :=
  List.isEmpty_map

theorem first?_map {β : Type} (f : α → β) (m : Keyed α) : (m.map f).first? = m.first?.map fun p => (p.1, f p.2) :=
  List.head?_map

/-- Maps with the same keys list them in the same order. -/
theorem keys_eq_keys {β : Type} {m : Keyed α} {n : Keyed β} (h : ∀ k, m.contains k ↔ n.contains k) :
    m.keys = n.keys := by
  have hunit : m.map (fun _ => ()) = n.map fun _ => () := ext_get? fun k => by
    have hk := h k
    simp only [contains] at hk
    rw [get?_map, get?_map]
    cases hm : m.get? k <;> cases hn : n.get? k <;> simp_all
  rw [← keys_map fun _ => (), hunit, keys_map]

theorem get?_first {m : Keyed α} {k : String} {v : α} (h : m.first? = some (k, v)) : m.get? k = some v :=
  (mem_entries_iff m k v).mp (List.mem_of_head? h)

theorem isEqv_self {eq : α → α → Bool} {m : Keyed α} (h : ∀ p ∈ m.entries, eq p.2 p.2 = true) :
    m.isEqv eq m = true := by
  have hzip : m.entries.zip m.entries = m.entries.map fun p => (p, p) := by
    generalize m.entries = l
    induction l with
    | nil => rfl
    | cons p l ih => rw [List.zip_cons_cons, ih, List.map_cons]
  simp only [isEqv, hzip, List.all_map, BEq.rfl, Bool.true_and, List.all_eq_true]
  exact fun p hp => by simpa using h p hp

/-- The first entry has the least key. -/
theorem le_of_first? {m : Keyed α} {j k : String} {v : α} (h : m.first? = some (k, v)) (hj : m.contains j) : k ≤ j := by
  obtain ⟨w, hw⟩ := contains_iff.mp hj
  obtain ⟨rest, hrest⟩ := List.head?_eq_some_iff.mp h
  have hmem := (mem_entries_iff m j w).mpr hw
  have hsorted := m.sorted
  rw [hrest] at hmem hsorted
  rcases List.mem_cons.mp hmem with heq | hmem
  · exact (congrArg Prod.fst heq).ge
  · exact ((List.pairwise_cons.mp hsorted).1 _ hmem).le

theorem sum_lookup {M : Type*} [AddCommMonoid M] (f : α → M) (k : String) {l : List (String × α)}
    (hl : l.Pairwise fun a b => a.1 < b.1) :
    (l.map fun p => if p.1 = k then f p.2 else 0).sum = ((lookup k l).map f).getD 0 := by
  induction l with
  | nil => rfl
  | cons p l ih =>
    obtain ⟨hp, hl⟩ := List.pairwise_cons.mp hl
    rw [List.map_cons, List.sum_cons]
    by_cases hk : p.1 = k
    · have hrest : (l.map fun q => if q.1 = k then f q.2 else 0).sum = 0 := by
        refine List.sum_eq_zero fun x hx => ?_
        obtain ⟨q, hq, rfl⟩ := List.mem_map.mp hx
        rw [if_neg fun e => String.lt_irrefl _ (hk.trans e.symm ▸ hp q hq)]
      rw [if_pos hk, hrest, add_zero, lookup, if_pos hk.symm]
      rfl
    · rw [if_neg hk, zero_add, ih hl, lookup, if_neg fun e => hk e.symm]

theorem sum_entries {M : Type*} [AddCommMonoid M] (f : α → M) (k : String) (m : Keyed α) :
    (m.entries.map fun p => if p.1 = k then f p.2 else 0).sum = ((m.get? k).map f).getD 0 :=
  sum_lookup f k m.sorted

end Keyed

end BlockElimination
