import BlockElimination.Proofs.Factor.Progress

/-!
# Fill paths

Where the pattern is symmetric, it is a graph on the names. Eliminating a name joins its neighbours, so two names that
are left are joined exactly if a path leads from one to the other whose interior has been eliminated. The column that a
name leaves in `L` is what it is joined to at its turn.
-/
namespace BlockElimination.Factor

open BlockMatrix

section Paths
variable {V : Type} {G : SimpleGraph V} {S T : List V} {u v w k : V}

/-- A walk leads from `u` to `v` whose interior is in `S`. -/
inductive Via (G : SimpleGraph V) (S : List V) : V → V → Prop
  | edge {u v : V} : G.Adj u v → Via G S u v
  | step {u w v : V} : G.Adj u w → w ∈ S → Via G S w v → Via G S u v

theorem via_nil : Via G [] u v ↔ G.Adj u v := by
  constructor
  · intro h
    cases h with
    | edge h => exact h
    | step _ hw _ => exact absurd hw List.not_mem_nil
  · exact .edge

theorem Via.mono (h : Via G S u v) (hST : S ⊆ T) : Via G T u v := by
  induction h with
  | edge h => exact .edge h
  | step h hw _ ih => exact .step h (hST hw) ih

theorem Via.trans (h : Via G S u k) (hk : k ∈ S) (h' : Via G S k v) : Via G S u v := by
  induction h with
  | edge h => exact .step h hk h'
  | step h hw _ ih => exact .step h hw (ih hk h')

/-- With one more name for the interior, a walk may pass through that name. -/
theorem via_concat : Via G (S ++ [k]) u v ↔ Via G S u v ∨ Via G S u k ∧ Via G S k v := by
  have hsub : S ⊆ S ++ [k] := List.subset_append_left S [k]
  constructor
  · intro h
    induction h with
    | edge h => exact .inl (.edge h)
    | step h hw _ ih =>
      rcases List.mem_append.mp hw with hw | hw
      · rcases ih with ih | ⟨ih, hk⟩
        · exact .inl (.step h hw ih)
        · exact .inr ⟨.step h hw ih, hk⟩
      · -- The walk goes to `k` at once, and from its last visit to `k` on it stays in `S`.
        obtain rfl := List.mem_singleton.mp hw
        rcases ih with ih | ⟨-, ih⟩
        · exact .inr ⟨.edge h, ih⟩
        · exact .inr ⟨.edge h, ih⟩
  · rintro (h | ⟨h, h'⟩)
    · exact h.mono hsub
    · exact (h.mono hsub).trans (List.mem_append_right S List.mem_cons_self) (h'.mono hsub)

theorem Via.exists_walk (h : Via G S u v) : ∃ p : G.Walk u v, ∀ k ∈ p.support, k ≠ u → k ≠ v → k ∈ S := by
  induction h with
  | edge h =>
    refine ⟨h.toWalk, fun k hk hu hv => ?_⟩
    simp [hu, hv] at hk
  | @step u w v h hw _ ih =>
    obtain ⟨p, hp⟩ := ih
    refine ⟨.cons h p, fun k hk hu hv => ?_⟩
    rw [SimpleGraph.Walk.support_cons] at hk
    have hk := (List.mem_cons.mp hk).resolve_left hu
    by_cases hkw : k = w
    · exact hkw ▸ hw
    · exact hp k hk hkw hv

theorem via_of_isPath (p : G.Walk u v) (hp : p.IsPath) (hne : u ≠ v)
    (hS : ∀ k ∈ p.support, k ≠ u → k ≠ v → k ∈ S) : Via G S u v := by
  induction p with
  | nil => exact absurd rfl hne
  | @cons u w v h p ih =>
    obtain ⟨hp, hu⟩ := (SimpleGraph.Walk.cons_isPath_iff h p).mp hp
    have hinterior : ∀ k ∈ p.support, k ≠ v → k ∈ S := by
      intro k hk hv
      refine hS k ?_ (fun e => hu (e ▸ hk)) hv
      rw [SimpleGraph.Walk.support_cons]
      exact List.mem_cons_of_mem u hk
    by_cases hwv : w = v
    · exact .edge (hwv ▸ h)
    · exact .step h (hinterior w p.start_mem_support hwv) (ih hp hwv fun k hk _ hv => hinterior k hk hv)

theorem via_iff_exists_isPath [DecidableEq V] (hne : u ≠ v) :
    Via G S u v ↔ ∃ p : G.Walk u v, p.IsPath ∧ ∀ k ∈ p.support, k ≠ u → k ≠ v → k ∈ S := by
  constructor
  · intro h
    obtain ⟨p, hp⟩ := h.exists_walk
    exact ⟨p.bypass, p.bypass_isPath, fun k hk => hp k (p.support_bypass_subset_support hk)⟩
  · rintro ⟨p, hp, hS⟩
    exact via_of_isPath p hp hne hS

end Paths

section Order
variable {order : List String} {i j k key : String} {q : ℕ}

/-- `j` is before `i`. -/
def Precedes (order : List String) (j i : String) : Prop :=
  ∃ p q : ℕ, p < q ∧ order[p]? = some j ∧ order[q]? = some i

theorem position_unique (hnodup : order.Nodup) {p : ℕ} (hp : order[p]? = some k) (hq : order[q]? = some k) : p = q := by
  obtain ⟨hlt, -⟩ := List.getElem?_eq_some_iff.mp hp
  exact (List.getElem?_inj hlt hnodup).mp (hp.trans hq.symm)

theorem mem_take_iff : k ∈ order.take q ↔ ∃ p < q, order[p]? = some k := by
  rw [List.mem_iff_getElem?]
  constructor
  · rintro ⟨p, hp⟩
    rw [List.getElem?_take] at hp
    split at hp
    case isTrue hlt => exact ⟨p, hlt, hp⟩
    case isFalse => cases hp
  · rintro ⟨p, hlt, hp⟩
    exact ⟨p, by rwa [List.getElem?_take_of_lt hlt]⟩

theorem precedes_iff (hnodup : order.Nodup) (hq : order[q]? = some j) : Precedes order k j ↔ k ∈ order.take q := by
  rw [mem_take_iff]
  constructor
  · rintro ⟨p, q', hlt, hp, hq'⟩
    obtain rfl := position_unique hnodup hq hq'
    exact ⟨p, hlt, hp⟩
  · rintro ⟨p, hlt, hp⟩
    exact ⟨p, q, hlt, hp, hq⟩

theorem getElem?_concat_eq_some : (order ++ [key])[q]? = some j ↔ order[q]? = some j ∨ q = order.length ∧ j = key := by
  rw [List.getElem?_append]
  split
  case isTrue hlt => exact (or_iff_left fun h => absurd h.1 hlt.ne).symm
  case isFalse hge =>
    rw [List.getElem?_eq_none (not_lt.mp hge), List.getElem?_singleton]
    grind

end Order

section Tracing
variable {F : Type} {A : BlockMatrix F} {s s' : State F} {key : String}

theorem Reshapes.rest_contains_of_comm (h : Reshapes s key s')
    (hcomm : ∀ i j, s.rest.contains i j → s.rest.contains j i) (i j : String) : s'.rest.contains i j ↔
      i ≠ key ∧ j ≠ key ∧ (s.rest.contains i j ∨ s.rest.contains i key ∧ s.rest.contains key j) := by
  rw [h.rest_contains]
  constructor
  · rintro (⟨hc, hj, hnot⟩ | ⟨⟨hi, hik⟩, hj, hjk⟩)
    · exact ⟨fun hi => hnot ⟨hi, hcomm key j (hi ▸ hc)⟩, hj, .inl hc⟩
    · exact ⟨hi, hj, .inr ⟨hik, hcomm j key hjk⟩⟩
  · rintro ⟨hi, hj, hc | ⟨hik, hkj⟩⟩
    · exact .inl ⟨hc, hj, fun h => hi h.1⟩
    · exact .inr ⟨⟨hi, hik⟩, hj, hcomm key j hkj⟩

/-- What a run has done to a symmetric pattern, in terms of walks through the names that have been eliminated. -/
structure Traced (A : BlockMatrix F) (s : State F) : Prop where
  comm : ∀ i j, s.rest.contains i j → s.rest.contains j i
  nodup : s.order.Nodup
  subset : ∀ k ∈ s.order, k ∈ A.colKeys
  mem_rest : ∀ k, k ∈ s.rest.colKeys ↔ k ∈ A.colKeys ∧ k ∉ s.order
  rest_contains : ∀ i j, i ≠ j → (s.rest.contains i j ↔ i ∉ s.order ∧ j ∉ s.order ∧ Via A.graph s.order i j)
  lower_contains : ∀ i j, s.lower.contains i j ↔ ∃ q, s.order[q]? = some j ∧ i ≠ j ∧ i ∉ s.order.take q ∧
    Via A.graph (s.order.take q) j i

theorem Traced.start (hA : ∀ i j, A.contains i j → A.contains j i) : Traced A (.start A) where
  comm := hA
  nodup := .nil
  subset k hk := absurd hk List.not_mem_nil
  mem_rest k := ⟨fun hk => ⟨hk, List.not_mem_nil⟩, fun hk => hk.1⟩
  rest_contains i j hne := by
    rw [State.start, via_nil, graph_adj hA]
    exact ⟨fun hc => ⟨List.not_mem_nil, List.not_mem_nil, hne, hc⟩, fun h => h.2.2.2⟩
  lower_contains i j := by
    refine iff_of_false (contains_empty i j) ?_
    rintro ⟨q, hq, -⟩
    cases hq

variable (hs : Traced A s)
include hs

theorem Traced.not_mem_order (h : s.rest.contains key key) : key ∉ s.order :=
  ((hs.mem_rest key).mp (mem_colKeys_of_contains h)).2

theorem Traced.rest_contains_step (h : Reshapes s key s') {i j : String} (hne : i ≠ j) :
    s'.rest.contains i j ↔ i ∉ s'.order ∧ j ∉ s'.order ∧ Via A.graph s'.order i j := by
  have hkey := hs.not_mem_order h.diagonal
  rw [h.rest_contains_of_comm hs.comm, h.order_eq, via_concat, hs.rest_contains i j hne]
  simp only [List.mem_append, List.mem_singleton, not_or]
  by_cases hi : i = key
  · exact iff_of_false (fun h => h.1 hi) fun h => h.1.2 hi
  · by_cases hj : j = key
    · exact iff_of_false (fun h => h.2.1 hj) fun h => h.2.1.2 hj
    · rw [hs.rest_contains i key hi, hs.rest_contains key j (Ne.symm hj)]
      tauto

theorem Traced.lower_contains_step (h : Reshapes s key s') (i j : String) :
    s'.lower.contains i j ↔ ∃ q, s'.order[q]? = some j ∧ i ≠ j ∧ i ∉ s'.order.take q ∧
      Via A.graph (s'.order.take q) j i := by
  have hkey := hs.not_mem_order h.diagonal
  have htake : ∀ q ≤ s.order.length, (s.order ++ [key]).take q = s.order.take q := fun q hq =>
    List.take_append_of_le_length hq
  rw [h.lower_contains, hs.lower_contains, h.order_eq]
  constructor
  · rintro (⟨q, hq, hrest⟩ | ⟨hi, rfl, hc⟩)
    · obtain ⟨hlt, -⟩ := List.getElem?_eq_some_iff.mp hq
      refine ⟨q, getElem?_concat_eq_some.mpr (.inl hq), ?_⟩
      rwa [htake q hlt.le]
    · obtain ⟨-, hi', hvia⟩ := (hs.rest_contains j i (Ne.symm hi)).mp (hs.comm i j hc)
      refine ⟨s.order.length, getElem?_concat_eq_some.mpr (.inr ⟨rfl, rfl⟩), hi, ?_⟩
      rw [htake _ le_rfl, List.take_length]
      exact ⟨hi', hvia⟩
  · rintro ⟨q, hq, hi, hrest⟩
    rcases getElem?_concat_eq_some.mp hq with hq | ⟨rfl, rfl⟩
    · obtain ⟨hlt, -⟩ := List.getElem?_eq_some_iff.mp hq
      rw [htake q hlt.le] at hrest
      exact .inl ⟨q, hq, hi, hrest⟩
    · rw [htake _ le_rfl, List.take_length] at hrest
      exact .inr ⟨hi, rfl, hs.comm j i ((hs.rest_contains j i (Ne.symm hi)).mpr ⟨hkey, hrest⟩)⟩

/-- One elimination. -/
theorem Traced.reshapes (h : Reshapes s key s') : Traced A s' where
  comm i j hc := by
    rw [h.rest_contains_of_comm hs.comm] at hc ⊢
    obtain ⟨hi, hj, hc | ⟨hik, hkj⟩⟩ := hc
    · exact ⟨hj, hi, .inl (hs.comm i j hc)⟩
    · exact ⟨hj, hi, .inr ⟨hs.comm key j hkj, hs.comm i key hik⟩⟩
  nodup := by
    rw [h.order_eq, ← List.concat_eq_append]
    exact hs.nodup.concat (hs.not_mem_order h.diagonal)
  subset k hk := by
    rw [h.order_eq, List.mem_append, List.mem_singleton] at hk
    rcases hk with hk | rfl
    · exact hs.subset k hk
    · exact ((hs.mem_rest k).mp (mem_colKeys_of_contains h.diagonal)).1
  mem_rest k := by
    have hcolumn : s.rest.contains k key → k ∈ s.rest.colKeys := fun hc => mem_colKeys_of_contains (hs.comm k key hc)
    rw [h.mem_rest, or_iff_left_of_imp hcolumn, hs.mem_rest, h.order_eq, List.mem_append, List.mem_singleton]
    tauto
  rest_contains i j := hs.rest_contains_step h
  lower_contains := hs.lower_contains_step h

end Tracing

section Run
variable {F : Type} [Scalar F] {A : BlockMatrix F} {par : FactorParameters F} {f : Factor F}

theorem exists_traced (hA : ∀ i j, A.contains i j → A.contains j i) (h : (compute par A).result = .ok f) :
    ∃ s, Traced A s ∧ s.order = f.order ∧ s.lower = f.lower :=
  exists_final_state (fun _ _ _ hs hstep => hs.reshapes hstep) (.start hA) h

/-- If the pattern is symmetric, every column is eliminated once. -/
theorem order_of_symmetric (hA : ∀ i j, A.contains i j → A.contains j i) (h : (compute par A).result = .ok f) :
    f.order.Nodup ∧ ∀ k, k ∈ f.order ↔ k ∈ A.colKeys := by
  obtain ⟨s, hs, horder, -⟩ := exists_traced hA h
  have hnodup := hs.nodup
  have hsubset := hs.subset
  rw [horder] at hnodup hsubset
  refine ⟨hnodup, fun k => ⟨hsubset k, fun hk => ?_⟩⟩
  have hlength : f.order.length = A.colKeys.length := (ends_compute par A).of_result_eq_ok h
  have hperm := (List.subperm_of_subset hnodup hsubset).perm_of_length_le hlength.ge
  exact hperm.mem_iff.mpr hk

/-- The fill of `L`. If the pattern is symmetric, every column is eliminated once, and `L` has the block `(i, j)`
exactly if a path leads from `j` to `i` whose interior is eliminated before `j`, whatever the values are. -/
theorem compute_fill_paths (hA : ∀ i j, A.contains i j → A.contains j i) (h : (compute par A).result = .ok f) :
    f.order.Nodup ∧ (∀ k, k ∈ f.order ↔ k ∈ A.colKeys) ∧
    ∀ i j, Precedes f.order j i → (f.lower.contains i j ↔
      ∃ path : A.graph.Walk j i, path.IsPath ∧ ∀ k ∈ path.support, k ≠ j → k ≠ i → Precedes f.order k j) := by
  obtain ⟨hnodup, hmem⟩ := order_of_symmetric hA h
  obtain ⟨s, hs, horder, hlower⟩ := exists_traced hA h
  have hcontains := hs.lower_contains
  rw [horder, hlower] at hcontains
  refine ⟨hnodup, hmem, fun i j hji => ?_⟩
  obtain ⟨p, q, hlt, hp, hq⟩ := hji
  have hne : j ≠ i := fun e => hlt.ne (position_unique hnodup hp (e ▸ hq))
  have hi : i ∉ f.order.take p := by
    rw [mem_take_iff]
    rintro ⟨p', hlt', hp'⟩
    have := position_unique hnodup hp' hq
    omega
  simp only [precedes_iff hnodup hp]
  rw [hcontains, ← via_iff_exists_isPath hne]
  constructor
  · rintro ⟨p', hp', -, -, hvia⟩
    obtain rfl := position_unique hnodup hp hp'
    exact hvia
  · exact fun hvia => ⟨p, hp, hne.symm, hi, hvia⟩

end Run

/-- Both `b` and `c` are joined to `a`, and to nothing else. -/
def star : BlockMatrix ℚ :=
  let centre := (BlockMatrix.empty.set "a" "a" (.ofScalar 1 4)).set "b" "b" (.ofScalar 1 3)
  let left := (centre.set "a" "b" (.ofScalar 1 1)).set "b" "a" (.ofScalar 1 1)
  ((left.set "a" "c" (.ofScalar 1 1)).set "c" "a" (.ofScalar 1 1)).set "c" "c" (.ofScalar 1 3)

theorem star_fill_path : ∃ f, (compute ⟨0, .natural⟩ star).result = .ok f ∧ Precedes f.order "b" "c" ∧
    f.lower.contains "c" "b" ∧ ∃ path : star.graph.Walk "b" "c", path.IsPath ∧
      ∀ k ∈ path.support, k ≠ "b" → k ≠ "c" → Precedes f.order k "b" := by
  have hcomm : ∀ i j, star.contains i j → star.contains j i := by
    intro i j hc
    simp only [star, contains_set, iff_false_intro (contains_empty _ _)] at hc ⊢
    tauto
  obtain ⟨f, hf⟩ := exists_eq_ok (show (compute ⟨0, .natural⟩ star).result.toBool = true by decide +kernel)
  have hrun : ∀ g ∈ (compute ⟨0, .natural⟩ star).result.toOption,
      g.order = ["a", "b", "c"] ∧ g.lower.contains "c" "b" := by decide +kernel
  obtain ⟨horder, hfill⟩ := hrun f (by rw [hf]; exact rfl)
  have hbc : Precedes f.order "b" "c" := by
    rw [horder]
    exact ⟨1, 2, by decide, by decide, by decide⟩
  obtain ⟨-, -, hpaths⟩ := compute_fill_paths hcomm hf
  exact ⟨f, hf, hbc, hfill, (hpaths "c" "b" hbc).mp hfill⟩

end BlockElimination.Factor
