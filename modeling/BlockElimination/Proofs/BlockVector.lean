import BlockElimination.BlockVector
import BlockElimination.Proofs.Keyed
import BlockElimination.Proofs.LinearMap.Action

/-!
# The segments of a block vector

With a dimension for every name, a block vector is a family of vectors that is zero where it has no segment.
-/
namespace BlockElimination.BlockVector

section Names
variable {F : Type} {v w : BlockVector F}

theorem contains_iff {k : String} : v.contains k ↔ ∃ s, v.get? k = some s := Option.isSome_iff_exists

theorem get?_eq_none {k : String} (h : ¬v.contains k) : v.get? k = none := by
  rwa [contains, Keyed.contains, Option.not_isSome_iff_eq_none] at h

theorem mem_keys {k : String} : k ∈ v.keys ↔ v.contains k := Keyed.mem_keys

theorem nodup_keys (v : BlockVector F) : v.keys.Nodup := Keyed.nodup_keys v.segments

theorem mem_entries {k : String} {s : Array F} : (k, s) ∈ v.segments.entries ↔ v.get? k = some s :=
  Keyed.mem_entries_iff v.segments k s

theorem ext_get? (h : ∀ k, v.get? k = w.get? k) : v = w := congrArg BlockVector.mk (Keyed.ext_get? h)

/-- The segments have the dimensions of their names. -/
def Conforms (v : BlockVector F) (dim : String → ℕ) : Prop := ∀ k s, v.get? k = some s → s.size = dim k

theorem Conforms.empty (dim : String → ℕ) : (empty : BlockVector F).Conforms dim := fun _ _ h => nomatch h

theorem get?_insert {key k : String} {t : Array F} :
    (⟨v.segments.insert key t⟩ : BlockVector F).get? k = if k = key then some t else v.get? k :=
  Keyed.get?_insert ..

theorem contains_insert {key k : String} {t : Array F} :
    (⟨v.segments.insert key t⟩ : BlockVector F).contains k ↔ v.contains k ∨ k = key := by
  rw [contains_iff, contains_iff, get?_insert]
  split <;> simp_all

theorem Conforms.insert {dim : String → ℕ} (h : v.Conforms dim) {key : String} {t : Array F} (ht : t.size = dim key) :
    (⟨v.segments.insert key t⟩ : BlockVector F).Conforms dim := by
  intro k s hs
  rw [get?_insert] at hs
  split at hs
  case isTrue hk =>
    obtain rfl := Option.some.inj hs
    exact hk ▸ ht
  case isFalse => exact h k s hs

/-- Which values an insertion has. -/
theorem Conforms.insertOrAdd_cases [Arith F] {dim : String → ℕ} (h : v.Conforms dim) {key : String} {s : Array F}
    (hs : s.size = dim key) {p : BlockVector F → Prop}
    (added : ∀ t, v.get? key = some t → p ⟨v.segments.insert key (Kernel.accumulate 1 s t)⟩)
    (fresh : v.get? key = none → p ⟨v.segments.insert key s⟩) : Yields (v.insertOrAdd key s) p := by
  unfold insertOrAdd
  split
  case h_1 t ht =>
    rw [if_pos ((h key t ht).trans hs.symm)]
    exact added t ht
  case h_2 hnone => exact fresh hnone

theorem Conforms.yields_keys_insertOrAdd [Arith F] {dim : String → ℕ} (h : v.Conforms dim) {key : String} {s : Array F}
    (hs : s.size = dim key) : Yields (v.insertOrAdd key s) fun w =>
      w.Conforms dim ∧ ∀ k, w.contains k ↔ v.contains k ∨ k = key := by
  apply h.insertOrAdd_cases hs
  · intro t ht
    exact ⟨h.insert ((Kernel.size_accumulate 1 s t).trans (h key t ht)), fun _ => contains_insert⟩
  · exact fun _ => ⟨h.insert hs, fun _ => contains_insert⟩

theorem Conforms.yields_keys_insertAll [Arith F] {dim : String → ℕ} (h : v.Conforms dim)
    {items : List (String × Array F)} (hitems : ∀ p ∈ items, p.2.size = dim p.1) : Yields (v.insertAll items) fun w =>
      w.Conforms dim ∧ ∀ k, w.contains k ↔ v.contains k ∨ k ∈ items.map Prod.fst := by
  refine Yields.foldlM (fun done (w : BlockVector F) =>
    w.Conforms dim ∧ ∀ k, w.contains k ↔ v.contains k ∨ k ∈ done.map Prod.fst) ⟨h, by simp⟩ ?_
  rintro done p hp w ⟨hw, hkeys⟩
  refine (hw.yields_keys_insertOrAdd (hitems p hp)).mono fun w' hw' => ⟨hw'.1, fun k => ?_⟩
  rw [hw'.2, hkeys, List.map_append, List.mem_append, List.map_singleton, List.mem_singleton, or_assoc]

theorem exists_insertAll_fresh [Arith F] {items : List (String × Array F)} (hnodup : (items.map Prod.fst).Nodup)
    (hfresh : ∀ p ∈ items, ¬v.contains p.1) :
    ∃ w, v.insertAll items = .ok w ∧ ∀ k s, w.get? k = some s ↔ v.get? k = some s ∨ (k, s) ∈ items := by
  induction items generalizing v with
  | nil => exact ⟨v, rfl, by simp⟩
  | cons p items ih =>
    obtain ⟨key, t⟩ := p
    obtain ⟨hnew, hnodup⟩ := List.nodup_cons.mp hnodup
    have hnone : v.get? key = none := get?_eq_none (hfresh _ List.mem_cons_self)
    have hinsert : v.insertOrAdd key t = .ok ⟨v.segments.insert key t⟩ := by rw [insertOrAdd, hnone]
    have hrest : ∀ q ∈ items, ¬(⟨v.segments.insert key t⟩ : BlockVector F).contains q.1 := fun q hq hc => by
      rcases contains_insert.mp hc with hc | hk
      · exact hfresh q (List.mem_cons_of_mem _ hq) hc
      · exact hnew (List.mem_map.mpr ⟨q, hq, hk⟩)
    obtain ⟨w, hw, hget⟩ := ih hnodup hrest
    rw [insertAll, List.foldlM_cons, hinsert]
    refine ⟨w, hw, fun k s => ?_⟩
    rw [hget, get?_insert, List.mem_cons]
    by_cases hk : k = key
    · subst hk
      rw [if_pos rfl, hnone]
      simp [eq_comm]
    · rw [if_neg hk]
      simp [hk]

end Names

variable {F : Type} [CommRing F] {v w : BlockVector F} {dim : String → ℕ}

/-- The vector at a name, which is zero if there is no segment. -/
def part (v : BlockVector F) (dim : String → ℕ) (k : String) : Fin (dim k) → F :=
  ((v.get? k).map (coords (dim k))).getD 0

theorem part_of_get? {k : String} {s : Array F} (h : v.get? k = some s) : v.part dim k = coords (dim k) s := by
  rw [part, h]
  rfl

theorem part_of_not_contains {k : String} (h : ¬v.contains k) : v.part dim k = 0 := by
  rw [part, get?_eq_none h]
  rfl

theorem Conforms.get?_eq (h : v.Conforms dim) {k : String} (hk : v.contains k) :
    v.get? k = some (Array.ofFn (v.part dim k)) := by
  obtain ⟨s, hs⟩ := contains_iff.mp hk
  rw [hs, part_of_get? hs, ofFn_coords (h k s hs)]

theorem eq_of_part (hv : v.Conforms dim) (hw : w.Conforms dim) (hkeys : v.keys = w.keys)
    (h : ∀ k ∈ v.keys, v.part dim k = w.part dim k) : v = w := by
  refine ext_get? fun k => ?_
  by_cases hk : k ∈ v.keys
  · rw [hv.get?_eq (mem_keys.mp hk), hw.get?_eq (mem_keys.mp (hkeys ▸ hk)), h k hk]
  · have hkw : k ∉ w.keys := hkeys ▸ hk
    rw [get?_eq_none (mt mem_keys.mpr hk), get?_eq_none (mt mem_keys.mpr hkw)]

/-- `w` is `v` with `s` added at `key`. -/
structure Adds (dim : String → ℕ) (v : BlockVector F) (key : String) (s : Array F) (w : BlockVector F) : Prop where
  conforms : w.Conforms dim
  contains_iff : ∀ k, w.contains k ↔ v.contains k ∨ k = key
  part_eq : ∀ k, w.part dim k = v.part dim k + if key = k then coords (dim k) s else 0

theorem Adds.insert (h : v.Conforms dim) {key : String} {s t : Array F} (ht : t.size = dim key)
    (hsum : coords (dim key) t = v.part dim key + coords (dim key) s) :
    Adds dim v key s ⟨v.segments.insert key t⟩ := by
  constructor
  · exact h.insert ht
  · exact fun _ => contains_insert
  · intro k
    by_cases hk : key = k
    · subst hk
      rw [if_pos rfl, ← hsum, part_of_get? (get?_insert.trans (if_pos rfl))]
    · rw [if_neg hk, add_zero, part, get?_insert, if_neg fun e => hk e.symm, part]

theorem Conforms.yields_insertOrAdd [DecidableEq F] (h : v.Conforms dim) {key : String} {s : Array F}
    (hs : s.size = dim key) : Yields (v.insertOrAdd key s) (Adds dim v key s) := by
  apply h.insertOrAdd_cases hs
  · intro t ht
    refine Adds.insert h (by rw [Kernel.size_accumulate, h key t ht]) ?_
    rw [part_of_get? ht]
    funext i
    have hi : (i : ℕ) < t.size := (h key t ht).symm ▸ i.isLt
    rw [coords_apply, coord_accumulate _ hi, one_mul]
    rfl
  · intro hnone
    refine Adds.insert h hs ?_
    simp [part, hnone]

section Dot
variable [DecidableEq F]

theorem dot_eq_dotProduct {n : ℕ} {s t : Array F} (hs : s.size = n) (ht : t.size = n) :
    Kernel.dot s t = .ok (coords n s ⬝ᵥ coords n t) := by
  subst hs
  unfold Kernel.dot Kernel.innerProduct
  rw [Kernel.requireLengths_bind, if_pos ht.symm, ascendingSum_eq_sum]
  rfl

/-- A segment that is missing on either side counts as zero. -/
theorem Conforms.yields_dot (hv : v.Conforms dim) (hw : w.Conforms dim) {names : Finset String}
    (hnames : ∀ k, v.contains k ∧ w.contains k → k ∈ names) :
    Yields (v.dot w) (· = ∑ k ∈ names, v.part dim k ⬝ᵥ w.part dim k) := by
  have hzero : ∀ k, ¬(v.contains k ∧ w.contains k) → v.part dim k ⬝ᵥ w.part dim k = 0 := fun k h => by
    by_cases hk : v.contains k
    · rw [part_of_not_contains fun hwk => h ⟨hk, hwk⟩, dotProduct_zero]
    · rw [part_of_not_contains hk, zero_dotProduct]
  have hentries : ∑ k ∈ names, v.part dim k ⬝ᵥ w.part dim k =
      (v.segments.entries.map fun p => coords (dim p.1) p.2 ⬝ᵥ w.part dim p.1).sum := by
    rw [← sum_eq_sum_of_support hzero (s := v.keys.toFinset)
      (fun k hk => List.mem_toFinset.mpr (mem_keys.mpr hk.1)) hnames, List.sum_toFinset _ v.nodup_keys, keys,
      Keyed.keys, List.map_map]
    refine congrArg List.sum (List.map_congr_left fun p hp => ?_)
    rw [Function.comp_apply, part_of_get? (mem_entries.mp hp)]
  rw [hentries]
  refine Yields.foldlM (fun (done : List (String × Array F)) acc =>
    acc = (done.map fun p => coords (dim p.1) p.2 ⬝ᵥ w.part dim p.1).sum) rfl ?_
  rintro done ⟨key, s⟩ hmem _ rfl
  have hs : s.size = dim key := hv key s (mem_entries.mp hmem)
  rw [List.map_append, List.sum_append, List.map_singleton, List.sum_singleton]
  dsimp only
  cases hget : w.get? key with
  | some t =>
    dsimp only
    rw [dot_eq_dotProduct hs (hw key t hget), part_of_get? hget]
    exact rfl
  | none =>
    have hnot : ¬w.contains key := fun hc => by
      obtain ⟨t, ht⟩ := contains_iff.mp hc
      cases hget.symm.trans ht
    rw [part_of_not_contains hnot, dotProduct_zero, add_zero]
    exact rfl

end Dot

end BlockElimination.BlockVector
